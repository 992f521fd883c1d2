import ClosureVM.Proofs.Machine.Activation
import ClosureVM.Proofs.Value.Soundness

/-! Configurations whose code is checked take only steps to such configurations, or stop with an
ordinary error: they are never stuck. -/
namespace ClosureVM

/-- What the code of a call can refer to. -/
def Activation.shape (a : Activation) : Shape :=
  match a.self with
  | .closure _ _ free => ⟨a.locals.length, free.length, true⟩
  | _ => ⟨a.locals.length, 0, false⟩

theorem Instruction.Uses.of_isReturn {pool : Array Value} {sh : Shape} {i : Instruction}
    {pops pushes : Nat} (hu : i.Uses pool sh pops pushes) (hi : (Piece.ins i).IsReturn) :
    sh.inFunction = true ∧ (i = ⟨.returnValue, []⟩ ∧ pops = 1 ∨ i = ⟨.returnNull, []⟩) := by
  cases hu with
  | returnValue hf => exact ⟨hf, .inl ⟨rfl, rfl⟩⟩
  | returnNull hf => exact ⟨hf, .inr rfl⟩
  | binary hop | unary hop | nullary hop => obtain rfl | rfl := hi <;> cases hop
  | _ => obtain hi | hi := hi <;> cases hi

namespace Activation

variable {a : Activation}

theorem shape_numLocals (a : Activation) : a.shape.numLocals = a.locals.length := by
  unfold shape
  split <;> rfl

theorem exists_of_inFunction (h : a.shape.inFunction = true) :
    ∃ id proto free, a.self = .closure id proto free := by
  unfold shape at h
  split at h
  · exact ⟨_, _, _, ‹_›⟩
  · cases h

private theorem exists_of_lt_numFree {n : Nat} (h : n < a.shape.numFree) :
    ∃ id proto free, a.self = .closure id proto free ∧ n < free.length := by
  unfold shape at h
  split at h
  · exact ⟨_, _, _, ‹_›, h⟩
  · exact absurd h (Nat.not_lt_zero _)

end Activation

theorem Slots.exists_get? (s : Slots) {i : Nat} (h : i < s.size) : ∃ v, s.get? i = some v :=
  ⟨_, if_pos h⟩

/-- Checked code to the end of a call. The program itself leaves nothing on the stack. -/
def Piece.Completes (pool : Array Value) (sh : Shape) (height : Nat) (code : List Piece) : Prop :=
  ∃ e, Piece.Checked pool sh height code e ∧ (sh.inFunction = false → e = 0)

/-- A call whose values are sound and whose code is checked where `height` values are on its
stack. A function never runs out of code before it returns. -/
structure Activation.Typed (pool : Array Value) (N : Int → Prop) (height : Nat)
    (a : Activation) : Prop where
  self : a.self.Sound pool N
  locals : ∀ v ∈ a.locals, v.Sound pool N
  temps : ∀ v ∈ a.temps, v.Sound pool N
  code : Piece.Completes pool a.shape height a.code
  returns : a.shape.inFunction = true → Piece.Returns a.code

/-- Functions that were called by one another, and last the program. A caller keeps the callee on
its stack. -/
def CallChain (a : Activation) : List Activation → Prop
  | [] => a.self = .null ∧ a.locals = []
  | b :: callers => a.shape.inFunction = true ∧ b.temps ≠ [] ∧ CallChain b callers

/-- Globals that every program can read. -/
structure Slots.Sound (pool : Array Value) (N : Int → Prop) (globals : Slots) : Prop where
  size : globals.size = numGlobals
  values : ∀ i v, globals.get? i = some v → v.Sound pool N

theorem Slots.Sound.mono {pool pool' : Array Value} {N : Int → Prop} {globals : Slots}
    (h : globals.Sound pool N) (hp : Extends pool pool') : globals.Sound pool' N :=
  ⟨h.size, fun i v hv => (h.values i v hv).mono hp⟩

/-- A configuration whose innermost call goes on once `height` values are on its stack. -/
structure Config.Poised (N : Int → Prop) (height : Nat) (c : Config) : Prop where
  globals : c.globals.Sound c.constants N
  lastPopped : c.lastPopped.Sound c.constants N
  current : c.current.Typed c.constants N height
  callers : ∀ a ∈ c.callers, a.Typed c.constants N a.temps.length
  chain : CallChain c.current c.callers

def Config.Typed (N : Int → Prop) (c : Config) : Prop := c.Poised N c.current.temps.length

/-- A step to a typed configuration, or an ordinary stop. -/
def Effect.Safe (N : Int → Prop) : Effect → Prop
  | .next c => c.Typed N
  | .stop s c => s.IsOrdinary N ∧ c.globals.Sound c.constants N
  | .stuck => False

namespace Piece

variable {p : Piece} {ps rest : List Piece}

theorem Returns.append (h : Returns rest) (ps : List Piece) : Returns (ps ++ rest) := by
  obtain ⟨p, hp, hr⟩ := h
  exact ⟨p, by rw [List.getLast?_append, hp]; rfl, hr⟩

theorem Returns.tail (h : Returns (p :: rest)) (hp : ¬ p.IsReturn) : Returns rest := by
  obtain ⟨q, hq, hr⟩ := h
  cases rest with
  | nil =>
    cases hq
    exact absurd hr hp
  | cons q rest => exact ⟨_, by rwa [List.getLast?_cons_cons] at hq, hr⟩

end Piece

theorem CallChain.inFunction_eq_false {a : Activation} (h : CallChain a []) :
    a.shape.inFunction = false := by
  rw [Activation.shape, h.1]

theorem CallChain.of_eq {a b : Activation} {callers : List Activation} (h : CallChain a callers)
    (hself : b.self = a.self) (hlocals : b.locals.length = a.locals.length) :
    CallChain b callers := by
  cases callers with
  | nil => exact ⟨hself.trans h.1, List.length_eq_zero_iff.mp (by rw [hlocals, h.2]; rfl)⟩
  | cons caller callers =>
    refine ⟨?_, h.2⟩
    rw [Activation.shape, hself, hlocals]
    exact h.1

namespace Config

variable {N : Int → Prop} {c : Config} {h : Nat}

theorem Poised.withTemps (hc : c.Poised N h) {temps : List Value}
    (ht : ∀ v ∈ temps, v.Sound c.constants N) : (c.withTemps temps).Poised N h :=
  ⟨hc.globals, hc.lastPopped,
    ⟨hc.current.self, hc.current.locals, ht, hc.current.code, hc.current.returns⟩, hc.callers,
    hc.chain.of_eq rfl rfl⟩

theorem Poised.drop (hc : c.Poised N h) (n : Nat) :
    (c.withTemps (c.current.temps.drop n)).Poised N h :=
  hc.withTemps fun v hv => hc.current.temps v (List.mem_of_mem_drop hv)

theorem Poised.take (hc : c.Poised N h) (n : Nat) :
    ∀ v ∈ (c.current.temps.take n).reverse, v.Sound c.constants N :=
  fun v hv => hc.current.temps v (List.mem_of_mem_take (List.mem_reverse.mp hv))

theorem Poised.push (hc : c.Poised N h) (hh : h = c.current.temps.length + 1) {v : Value}
    (hv : v.Sound c.constants N) : (c.push v).Safe N := by
  unfold Config.push
  split
  · exact ⟨.inr trivial, hc.globals⟩
  · have ht := @Poised.withTemps N c h hc (v :: c.current.temps)
      (List.forall_mem_cons.mpr ⟨hv, hc.current.temps⟩)
    subst hh
    exact ht

theorem Poised.pushNew (hc : c.Poised N h) (hh : h = c.current.temps.length + 1)
    {make : Nat → Value} (hv : ∀ id, (make id).Sound c.constants N) :
    (c.pushNew make).Safe N := by
  have hf : Poised N h { c with fresh := c.fresh + 1 } :=
    ⟨hc.globals, hc.lastPopped, hc.current, hc.callers, hc.chain⟩
  exact hf.push hh (hv _)

theorem Poised.pushResult (hc : c.Poised N h) (hh : h = c.current.temps.length + 1)
    {r : Except Stop Value} (hr : Ordinary N (Value.Sound c.constants N) r) :
    (c.pushResult r).Safe N := by
  cases r with
  | ok v => exact hc.push hh hr
  | error s => exact ⟨hr, hc.globals⟩

theorem Poised.pushFound (hc : c.Poised N h) (hh : h = c.current.temps.length + 1)
    {o : Option Value} {v : Value} (ho : o = some v) (hv : v.Sound c.constants N) :
    (c.pushFound o).Safe N := by
  subst ho
  exact hc.push hh hv

theorem Poised.binary (hc : c.Poised N (h + 1)) (hh : c.current.temps.length = h + 2)
    {f : Value → Value → Except Stop Value}
    (hf : ∀ l r, l.Sound c.constants N → r.Sound c.constants N →
      Ordinary N (Value.Sound c.constants N) (f l r)) : (c.binary f).Safe N := by
  have hs := hc.current.temps
  unfold Config.binary
  match ht : c.current.temps with
  | [] | [_] =>
    rw [ht] at hh
    simp at hh
    try omega
  | right :: left :: temps =>
    rw [ht] at hh hs
    simp only [List.mem_cons, forall_eq_or_imp] at hs
    obtain ⟨hright, hleft, hrest⟩ := hs
    refine (hc.withTemps hrest).pushResult ?_ (hf left right hleft hright)
    simp only [List.length_cons] at hh
    exact (Nat.succ.inj hh).symm

/-- The topmost of the values on the stack. -/
theorem Poised.uncons (hc : c.Poised N h) {k : Nat} (hh : c.current.temps.length = k + 1) :
    ∃ v temps, c.current.temps = v :: temps ∧ temps.length = k ∧ v.Sound c.constants N ∧
      (c.withTemps temps).Poised N h := by
  obtain ⟨v, temps, ht⟩ := List.exists_cons_of_length_eq_add_one hh
  have hs := hc.current.temps
  rw [ht] at hh hs
  obtain ⟨hv, hrest⟩ := List.forall_mem_cons.mp hs
  exact ⟨v, temps, ht, Nat.succ.inj hh, hv, hc.withTemps hrest⟩

theorem Poised.setGlobal (hc : c.Poised N h) (a : Nat) {v : Value}
    (hv : v.Sound c.constants N) :
    Poised N h { c with globals := c.globals.set a v } := by
  refine ⟨⟨(Slots.size_set ..).trans hc.globals.size, fun i u hu => ?_⟩, hc.lastPopped,
    hc.current, hc.callers, hc.chain⟩
  dsimp only at hu
  rw [Slots.get?_set] at hu
  split at hu
  · cases hu
    exact hv
  · exact hc.globals.values i u hu

theorem Poised.setLocal (hc : c.Poised N h) (a : Nat) {v : Value}
    (hv : v.Sound c.constants N) :
    Poised N h { c with current := { c.current with locals := c.current.locals.set a v } } := by
  have hshape : Activation.shape { c.current with locals := c.current.locals.set a v } =
      c.current.shape := by
    simp only [Activation.shape, List.length_set]
  refine ⟨hc.globals, hc.lastPopped, ⟨hc.current.self, fun u hu => ?_, hc.current.temps, ?_, ?_⟩,
    hc.callers, hc.chain.of_eq rfl (List.length_set ..)⟩
  · obtain hu | rfl := List.mem_or_eq_of_mem_set hu
    · exact hc.current.locals u hu
    · exact hv
  · rw [hshape]
    exact hc.current.code
  · rw [hshape]
    exact hc.current.returns

theorem Poised.callBuiltin (hc : c.Poised N h) (b : Builtin) {args temps : List Value}
    (ha : ∀ v ∈ args, v.Sound c.constants N) (hm : ∀ v ∈ args, v.Measures N)
    (ht : ∀ v ∈ temps, v.Sound c.constants N) (hh : h = temps.length + 1) :
    (c.callBuiltin b args temps).Safe N := by
  have hr := b.apply_sound c.fresh ha hm
  unfold Config.callBuiltin
  dsimp only
  cases hb : b.apply c.fresh args with
  | error f =>
    rw [hb] at hr
    exact ⟨hr, hc.globals⟩
  | ok reply =>
    rw [hb] at hr
    have hw : Poised N h { c with
        fresh := c.fresh + 1, written := c.written ++ reply.written } :=
      ⟨hc.globals, hc.lastPopped, hc.current, hc.callers, hc.chain⟩
    exact (hw.withTemps ht).push hh hr

theorem Poised.enter (hc : c.Poised N h) {id : Nat} {proto : Prototype}
    {free args temps : List Value} (hp : (Value.closure id proto free).Sound c.constants N)
    (ha : ∀ v ∈ args, v.Sound c.constants N) (ht : ∀ v ∈ temps, v.Sound c.constants N)
    (hh : h = temps.length + 1) :
    (c.enter (.closure id proto free) proto args temps).Safe N := by
  cases hp with
  | closure hmem hproto hfree =>
  obtain ⟨body, e, hbody, hret, h₀, hle, hcheck⟩ := hproto
  unfold Config.enter
  dsimp only
  by_cases harity : (args.length : Int) = proto.numParams
  · rw [if_neg (not_not_intro harity)]
    split
    · exact ⟨.inr trivial, hc.globals⟩
    split
    · exact ⟨.inr trivial, hc.globals⟩
    rw [hbody.body?_eq]
    dsimp only
    rw [if_pos (harity ▸ hle)]
    have hcallee : (Value.closure id proto free).Sound c.constants N :=
      .closure hmem ⟨body, e, hbody, hret, h₀, hle, hcheck⟩ hfree
    have hlocals : (args ++ List.replicate (proto.numLocals.toNat - args.length) Value.null).length =
        proto.numLocals.toNat := by
      rw [List.length_append, List.length_replicate]
      omega
    refine ⟨hc.globals, hc.lastPopped,
      ⟨hcallee, fun v hv => ?_, by simp, ⟨e, ?_, fun hf => nomatch hf⟩, fun _ => hret⟩,
      fun a hcaller => ?_, rfl, List.cons_ne_nil _ _, hc.chain.of_eq rfl rfl⟩
    · obtain hv | hv := List.mem_append.mp hv
      · exact ha v hv
      · rw [List.eq_of_mem_replicate hv]
        exact .null
    · dsimp only [Activation.shape]
      rw [hlocals]
      exact hcheck
    · obtain rfl | hcaller := List.mem_cons.mp hcaller
      · subst hh
        exact ⟨hc.current.self, hc.current.locals, List.forall_mem_cons.mpr ⟨hcallee, ht⟩,
          hc.current.code, hc.current.returns⟩
      · exact hc.callers a hcaller
  · rw [if_pos harity]
    exact ⟨.inl trivial, hc.globals⟩

theorem Poised.call (hc : c.Poised N (h + 1)) {n : Nat}
    (hh : c.current.temps.length = h + (n + 1))
    (hm : ∀ v ∈ c.current.temps, v.Measures N) : (c.call n).Safe N := by
  have hd : (c.current.temps.drop n).length = h + 1 := by
    rw [List.length_drop]
    omega
  have hs := (hc.drop n).current.temps
  obtain ⟨callee, temps, ht⟩ := List.exists_cons_of_length_eq_add_one hd
  rw [temps_withTemps, ht] at hs
  rw [ht, List.length_cons] at hd
  obtain ⟨hcallee, htemps⟩ := List.forall_mem_cons.mp hs
  have hma : ∀ v ∈ (c.current.temps.take n).reverse, v.Measures N :=
    fun v hv => hm v (List.mem_of_mem_take (List.mem_reverse.mp hv))
  unfold Config.call
  dsimp only
  rw [ht]
  cases hcallee with
  | closure hmem hp hf => exact hc.enter (.closure hmem hp hf) (hc.take n) htemps hd.symm
  | builtin b => exact hc.callBuiltin b (hc.take n) hma htemps hd.symm
  | _ => exact ⟨.inl trivial, hc.globals⟩

/-- A function has a caller, which goes on with the result in the place of the callee. -/
theorem Poised.leave (hc : c.Poised N h) (hf : c.current.shape.inFunction = true) {v : Value}
    (hv : v.Sound c.constants N) : (c.leave v).Safe N := by
  have hchain := hc.chain
  unfold Config.leave
  cases hcallers : c.callers with
  | nil =>
    rw [hcallers] at hchain
    rw [hchain.inFunction_eq_false] at hf
    cases hf
  | cons caller callers =>
    rw [hcallers] at hchain
    obtain ⟨-, hne, hchain⟩ := hchain
    obtain ⟨callee, temps, ht⟩ := List.exists_cons_of_ne_nil hne
    have hcaller := hc.callers
    rw [hcallers] at hcaller
    obtain ⟨hcaller, hrest⟩ := List.forall_mem_cons.mp hcaller
    have hp : Poised N (temps.length + 1) { c with current := caller.withTemps temps, callers } := by
      rw [ht] at hcaller
      have hs := hcaller.temps
      rw [ht] at hs
      exact ⟨hc.globals, hc.lastPopped,
        ⟨hcaller.self, hcaller.locals, (List.forall_mem_cons.mp hs).2, hcaller.code,
          hcaller.returns⟩, hrest, hchain.of_eq rfl rfl⟩
    dsimp only
    rw [ht]
    exact hp.push rfl hv

private theorem ofValues_ordinary {pool : Array Value} {entries : Entries} {values : List Value}
    (he : ∀ e ∈ entries, e.2.Sound pool N) (hv : ∀ v ∈ values, v.Sound pool N) :
    Ordinary N (fun result : Entries => ∀ e ∈ result, e.2.Sound pool N)
      ((Entries.ofValues entries values).mapError .fault) := by
  fun_induction Entries.ofValues entries values with
  | case1 entries k v rest key hkey ih =>
    obtain ⟨-, hv, hrest⟩ : _ ∧ v.Sound pool N ∧ ∀ u ∈ rest, u.Sound pool N := by
      simpa only [List.mem_cons, forall_eq_or_imp] using hv
    refine ih (fun e hmem => ?_) hrest
    obtain rfl | hmem := Entries.mem_insert hmem
    · exact hv
    · exact he e hmem
  | case2 entries k v rest f hkey => exact .inl (Value.hashKey_language hkey)
  | case3 entries values hne => exact he

theorem Poised.makeHash (hc : c.Poised N (h + 1)) {n : Nat} (hn : n % 2 = 0)
    (hh : c.current.temps.length = h + n) : (c.makeHash n).Safe N := by
  have hr := ofValues_ordinary (List.forall_mem_nil _) (hc.take n)
  unfold Config.makeHash
  dsimp only
  rw [if_pos ⟨by omega, hn⟩]
  cases he : Entries.ofValues [] (c.current.temps.take n).reverse with
  | error f =>
    rw [he] at hr
    exact ⟨hr, hc.globals⟩
  | ok entries =>
    rw [he] at hr
    refine (hc.drop n).pushNew ?_ fun _ => .hash hr
    rw [temps_withTemps, List.length_drop]
    omega

theorem Poised.makeClosure (hc : c.Poised N (h + 1)) {a n : Nat} {proto : Prototype}
    (ha : c.constants[a]? = some (.function proto)) (hp : proto.Sound c.constants n)
    (hh : c.current.temps.length = h + n) : (c.makeClosure a n).Safe N := by
  have hl : (c.current.temps.take n).reverse.length = n := by
    rw [List.length_reverse, List.length_take]
    omega
  unfold Config.makeClosure
  dsimp only
  rw [ha]
  dsimp only
  rw [if_pos (by omega)]
  refine (hc.drop n).pushNew ?_ fun _ =>
    .closure (Array.mem_of_getElem? ha) (hl.symm ▸ hp) (hc.take n)
  rw [temps_withTemps, List.length_drop]
  omega

/-- An instruction other than a return, taken off checked code, is safe. -/
theorem Poised.execute {i : Instruction} {pops pushes : Nat}
    (hu : i.Uses c.constants c.current.shape pops pushes) (hc : c.Poised N (h + pushes))
    (hh : c.current.temps.length = h + pops) (hi : ¬ (Piece.ins i).IsReturn)
    (hN : ∀ n, IsWord n → N n) (hm : ∀ v ∈ c.current.temps, v.Measures N) :
    (c.execute i.op (i.operands.getD 0 0) (i.operands.getD 1 0)).Safe N := by
  cases hu with
  | constant hv hl => exact hc.pushFound (by rw [hh]) hv (hl.sound hN)
  | @binary op hop =>
    cases op with
    | add | sub | mul | div => exact hc.binary hh fun l r hl hr => hl.arithmetic hr hN (by decide)
    | equal | notEqual | greaterThan =>
      exact hc.binary hh fun l r hl hr => Value.compare_ordinary _ l r
    | index => exact hc.binary hh fun l r hl hr => hl.index r
    | _ => cases hop
  | @unary op hop =>
    obtain ⟨v, temps, ht, hl, hv, hc'⟩ := hc.uncons hh
    cases op with
    | bang =>
      simp only [Config.execute, ht]
      exact hc'.push (by rw [temps_withTemps, hl]) (.bool _)
    | minus =>
      simp only [Config.execute, ht]
      exact hc'.pushResult (by rw [temps_withTemps, hl]) (hv.negate hN)
    | _ => cases hop
  | @nullary op hop =>
    cases op with
    | pushTrue | pushFalse => exact hc.push (by rw [hh]) (.bool _)
    | pushNull => exact hc.push (by rw [hh]) .null
    | _ => cases hop
  | pop =>
    obtain ⟨v, temps, ht, rfl, hv, hc'⟩ := hc.uncons hh
    simp only [Config.execute, ht]
    refine ⟨hc'.globals, ?_, hc'.current, hc'.callers, hc'.chain⟩
    split
    · exact hv
    · exact hc.lastPopped
  | @getGlobal a ha =>
    obtain ⟨v, hv⟩ := c.globals.exists_get? (hc.globals.size ▸ ha)
    exact hc.pushFound (by rw [hh]) hv (hc.globals.values a v hv)
  | @setGlobal a ha =>
    obtain ⟨v, temps, ht, rfl, hv, hc'⟩ := hc.uncons hh
    simp only [Config.execute, ht]
    rw [if_pos (by rw [hc.globals.size]; exact ha)]
    exact hc'.setGlobal a hv
  | @getLocal a ha =>
    rw [Activation.shape_numLocals] at ha
    have hv := List.getElem?_eq_getElem ha
    exact hc.pushFound (by rw [hh]) hv (hc.current.locals _ (List.mem_of_getElem? hv))
  | @setLocal a ha =>
    obtain ⟨v, temps, ht, rfl, hv, hc'⟩ := hc.uncons hh
    rw [Activation.shape_numLocals] at ha
    simp only [Config.execute, ht, List.getD_cons_zero]
    rw [if_pos ha]
    exact hc'.setLocal a hv
  | @getBuiltin a ha =>
    have hv := List.getElem?_eq_getElem ha
    exact hc.pushFound (by rw [hh]) (by rw [List.getD_cons_zero, hv]; rfl) (.builtin _)
  | @getFree a ha =>
    obtain ⟨id, proto, free, hs, hl⟩ := Activation.exists_of_lt_numFree ha
    have hself := hc.current.self
    rw [hs] at hself
    cases hself with
    | closure _ _ hfree =>
      have hv := List.getElem?_eq_getElem hl
      simp only [Config.execute, hs]
      exact hc.pushFound (by rw [hh]) hv (hfree _ (List.mem_of_getElem? hv))
  | currentClosure hf =>
    obtain ⟨id, proto, free, hs⟩ := Activation.exists_of_inFunction hf
    have hself := hc.current.self
    simp only [Config.execute, hs]
    exact hc.push (by rw [hh]) (hs ▸ hself)
  | array =>
    simp only [Config.execute, List.getD_cons_zero]
    rw [if_pos (by omega)]
    refine (hc.drop pops).pushNew ?_ fun _ => .array (hc.take pops)
    rw [temps_withTemps, List.length_drop]
    omega
  | hash hn => exact hc.makeHash hn hh
  | call n => exact hc.call hh hm
  | returnValue => exact absurd (.inl rfl) hi
  | returnNull => exact absurd (.inr rfl) hi

theorem Typed.withCode (hc : c.Typed N) {code : List Piece}
    (hcode : Piece.Completes c.constants c.current.shape h code)
    (hr : c.current.shape.inFunction = true → Piece.Returns code) :
    (c.withCode code).Poised N h :=
  ⟨hc.globals, hc.lastPopped,
    ⟨hc.current.self, hc.current.locals, hc.current.temps, hcode, hr⟩, hc.callers,
    hc.chain.of_eq rfl rfl⟩

/-- A configuration with checked code is never stuck: it takes a step to one of its kind, or
stops with an ordinary error. -/
theorem Typed.step (hc : c.Typed N) (hne : c.current.code ≠ []) (hN : ∀ n, IsWord n → N n)
    (hm : ∀ v ∈ c.current.temps, v.Measures N) : c.step.Safe N := by
  obtain ⟨e, hcheck, hend⟩ := hc.current.code
  have hret := hc.current.returns
  unfold Config.step
  cases hcode : c.current.code with
  | nil => exact absurd hcode hne
  | cons p rest =>
    rw [hcode] at hcheck hret
    generalize hh : c.current.temps.length = height at hcheck
    cases hcheck with
    | @ins _ i pops pushes h _ _ hu hrest =>
      by_cases hi : (Piece.ins i).IsReturn
      · obtain ⟨hf, ⟨rfl, rfl⟩ | rfl⟩ := hu.of_isReturn hi
        · obtain ⟨v, temps, ht, -, hv, -⟩ := Poised.uncons hc hh
          have he : (c.withCode rest).execute .returnValue 0 0 = c.leave v := by
            simp only [Config.execute, Config.withCode, ht]
            rfl
          change ((c.withCode rest).execute .returnValue 0 0).Safe N
          rw [he]
          exact Poised.leave hc hf hv
        · exact Poised.leave hc hf .null
      · exact (hc.withCode ⟨e, hrest, hend⟩ fun hf => (hret hf).tail hi).execute hu hh hi hN hm
    | @closure _ a n h _ _ proto body _ ha hb hr h₀ hle hbody hrest =>
      have hp : proto.Sound c.constants n := ⟨body, _, hb, hr, h₀, hle, hbody⟩
      have hi : ¬ (Piece.op .closure [a, n]).IsReturn := by
        rintro (h | h) <;> cases h
      exact (hc.withCode ⟨e, hrest, hend⟩ fun hf => (hret hf).tail hi).makeClosure ha hp hh
    | branch ht he hrest =>
      have hr := fun hf => (hret hf).tail id
      obtain ⟨v, temps, htemps, rfl, -, hc'⟩ := Poised.uncons hc hh
      have hnext {code : List Piece} (hcode : Piece.Completes c.constants c.current.shape
          temps.length code) (hr : c.current.shape.inFunction = true → Piece.Returns code) :
          ((c.withTemps temps).withCode code).Typed N :=
        ⟨hc.globals, hc.lastPopped,
          ⟨hc.current.self, hc.current.locals, hc'.current.temps, hcode, hr⟩, hc.callers,
          hc.chain.of_eq rfl rfl⟩
      rw [htemps]
      dsimp only
      split
      · exact hnext ⟨e, ht.append (.skip hrest), hend⟩ fun hf => ((hr hf).append [.skip]).append _
      · exact hnext ⟨e, he.append hrest, hend⟩ fun hf => (hr hf).append _
    | skip hrest => exact hc.withCode ⟨e, hh ▸ hrest, hend⟩ fun hf => (hret hf).tail id

/-- Once no code is left, it is the program itself that has ended, with nothing on the stack. -/
theorem Typed.of_code_eq_nil (hc : c.Typed N) (hcode : c.current.code = []) :
    c.current = { code := [] } ∧ c.callers = [] := by
  have hchain := hc.chain
  cases hcallers : c.callers with
  | nil =>
    rw [hcallers] at hchain
    obtain ⟨e, hcheck, hend⟩ := hc.current.code
    rw [hcode] at hcheck
    have htemps : c.current.temps = [] :=
      List.length_eq_zero_iff.mp (hcheck.height_nil.trans (hend hchain.inFunction_eq_false))
    refine ⟨?_, rfl⟩
    calc c.current
      _ = ⟨c.current.self, c.current.code, c.current.locals, c.current.temps⟩ := rfl
      _ = { code := [] } := by rw [hchain.1, hcode, hchain.2, htemps]
  | cons caller callers =>
    rw [hcallers] at hchain
    obtain ⟨p, hp, -⟩ := hcode ▸ hc.current.returns hchain.1
    cases hp

end Config

end ClosureVM
