import ClosureVM.Proofs.Compiler.Binding
import ClosureVM.Proofs.Machine.Binding
import ClosureVM.Proofs.Session.Calls

/-! What a closure has captured is at all times what the captured variable holds. -/
namespace ClosureVM

namespace Machine

variable {m m₁ m' m'' : Machine} {i : Instruction} {is js : List Instruction}
  {P : Machine → Prop}

/-- What the variable holds that an instruction in the frame loads. -/
def load? (m : Machine) (fr : Frame) (i : Instruction) : Option Value :=
  match i.op with
  | .getLocal => m.stack.at? (fr.base + (i.operands.getD 0 0 : Nat))
  | .getFree => fr.free[i.operands.getD 0 0]?
  | .currentClosure => some fr.closure
  | _ => none

/-- The machine executes the given loads, one after the other. -/
inductive Loads : List Instruction → Machine → Machine → Prop
  | nil (m : Machine) : Loads [] m m
  | cons {m m₁ m' : Machine} {i : Instruction} {is : List Instruction} :
    m.instruction? = some i → i.op.isCapture → m.Next m₁ → Loads is m₁ m' → Loads (i :: is) m m'

namespace Loads

theorem isCapture (h : Loads is m m') : ∀ i ∈ is, i.op.isCapture := by
  induction h with
  | nil m => exact List.forall_mem_nil _
  | cons _ hi _ _ ih => exact List.forall_mem_cons.mpr ⟨hi, ih⟩

theorem concat (h : Loads is m m') (hi : m'.instruction? = some i) (hc : i.op.isCapture)
    (hn : m'.Next m'') : Loads (is ++ [i]) m m'' := by
  induction h with
  | nil m => exact .cons hi hc hn (.nil m'')
  | cons hi' hc' hn' _ ih => exact .cons hi' hc' hn' (ih hi hn)

theorem of_append (h : Loads (is ++ js) m m') : ∃ m₁, Loads is m m₁ ∧ Loads js m₁ m' := by
  induction is generalizing m with
  | nil => exact ⟨m, .nil m, h⟩
  | cons i is ih =>
    cases h with
    | cons hi hc hn hr =>
      obtain ⟨m₁, h₁, h₂⟩ := ih hr
      exact ⟨m₁, .cons hi hc hn h₁, h₂⟩

theorem reaches (h : Loads is m m') : Reaches (fun _ => True) m m' := by
  induction h with
  | nil m => exact .start trivial
  | cons _ _ hn _ ih => exact ih.head trivial hn

end Loads

theorem Reaches.trans (h : Reaches P m m') (h' : Reaches P m' m'') : Reaches P m m'' := by
  induction h' with
  | start _ => exact h
  | step _ hn hp ih => exact .step ih hn hp

end Machine

/-- The stack of the calls at the bottom is at the bottom of the stack. -/
theorem stackOf_prefix (inner acts : List Activation) :
    stackOf acts <+: stackOf (inner ++ acts) := by
  induction inner with
  | nil => exact List.prefix_rfl
  | cons a inner ih => exact ih.trans (List.prefix_append ..)

namespace Represents

variable {m m' : Machine} {c c' : Config} {pool : Array Value} {k n e : Nat}
  {is : List Instruction}

theorem load (hr : Represents m c) (ht : c.Typed fun _ => True) {i : Instruction}
    (hi : m.instruction? = some i) (hc : i.op.isCapture) (hn : m.Next m') :
    ∃ rest v, c.current.code = .ins i :: rest ∧ c.current.load? i = some v ∧
      Represents m' ((c.withCode rest).withTemps (v :: c.current.temps)) ∧
      ((c.withCode rest).withTemps (v :: c.current.temps)).Typed fun _ => True := by
  have hplain : i.op.isPlain := by
    rcases i with ⟨op, operands⟩
    cases op <;> first | rfl | cases hc
  obtain ⟨rest, hcode⟩ := hr.code_eq hi hplain
  obtain ⟨c', hnext, hr', ht'⟩ := hr.next ht hn
  unfold Config.Next Config.step at hnext
  rw [hcode] at hnext
  obtain ⟨v, hv, rfl⟩ := Config.execute_capture hc hnext
  exact ⟨rest, v, hcode, hv, hr', ht'⟩

/-- Loads leave the values of their variables on the stack. -/
theorem loads (hr : Represents m c) (ht : c.Typed fun _ => True) (h : m.Loads is m') :
    ∃ (code : List Piece) (vs : List Value), c.current.code = is.map .ins ++ code ∧
      is.map c.current.load? = vs.map some ∧
      Represents m' ((c.withCode code).withTemps (vs.reverse ++ c.current.temps)) ∧
      ((c.withCode code).withTemps (vs.reverse ++ c.current.temps)).Typed fun _ => True := by
  induction h generalizing c with
  | nil m => exact ⟨c.current.code, [], rfl, rfl, hr, ht⟩
  | cons hi hc hn _ ih =>
    obtain ⟨rest, v, hcode, hv, hr₁, ht₁⟩ := hr.load ht hi hc hn
    obtain ⟨code, vs, hrest, hvs, hr', ht'⟩ := ih hr₁ ht₁
    refine ⟨code, v :: vs, ?_, ?_, ?_⟩
    · rw [hcode, List.map_cons, List.cons_append, ← hrest]
      rfl
    · rw [List.map_cons, List.map_cons, hv, ← hvs]
      rfl
    · rw [List.reverse_cons, List.append_assoc]
      exact ⟨hr', ht'⟩

/-- Loads stay within their call. -/
theorem loads_within (hr : Represents m c) (ht : c.Typed fun _ => True) (h : m.Loads is m') :
    Machine.Reaches (fun x => x.depth = m.depth) m m' := by
  induction h generalizing c with
  | nil m => exact .start rfl
  | cons hi hc hn _ ih =>
    obtain ⟨rest, v, hcode, hv, hr₁, ht₁⟩ := hr.load ht hi hc hn
    have hdepth := hr₁.depth_eq.trans hr.depth_eq.symm
    have hrest := ih hr₁ ht₁
    rw [hdepth] at hrest
    exact hrest.head rfl hn

/-- As long as a call lasts, its locals that have had their turn stay as they are. -/
theorem persists (hr : Represents m c) (ht : c.Typed fun _ => True)
    (hb : Piece.Binds pool k n c.current.code e)
    (h : Machine.Reaches (fun x => m.depth ≤ x.depth) m m') :
    ∃ c', Represents m' c' ∧ (c'.Typed fun _ => True) ∧
      c.current.PersistsAbove pool n c.callers (c'.current :: c'.callers) := by
  induction h with
  | start _ => exact ⟨c, hr, ht, [], c.current, rfl, fun _ _ => rfl, k, n, e, le_rfl, hb⟩
  | step _ hn hdepth ih =>
    obtain ⟨c₁, hr₁, ht₁, hp⟩ := ih
    obtain ⟨c₂, hnext, hr₂, ht₂⟩ := hr₁.next ht₁ hn
    rw [hr.depth_eq, hr₂.depth_eq] at hdepth
    exact ⟨c₂, hr₂, ht₂, hnext.persistsAbove hp (Nat.le_of_succ_le_succ hdepth)⟩

theorem at?_persisting {a : Activation} {below : List Activation} (hr : Represents m c)
    (hp : a.PersistsAbove pool n below (c.current :: c.callers)) {i : Nat} {v : Value}
    (hi : i < n) (hv : a.locals[i]? = some v) :
    m.stack.at? ((stackOf below).length + i : Nat) = some v := by
  obtain ⟨inner, a', hacts, hp⟩ := hp
  apply hr.carries.at?
  have hlocal : a'.locals[i]? = some v := (hp.locals i hi).trans hv
  have hlt : i < a'.locals.length := (List.getElem?_eq_some_iff.mp hlocal).1
  have hstack : (stackOf (a' :: below))[(stackOf below).length + i]? = some v := by
    change (stackOf below ++ (a'.locals ++ a'.temps.reverse))[_]? = _
    rw [List.getElem?_append_right (Nat.le_add_right ..), Nat.add_sub_cancel_left,
      List.getElem?_append_left hlt, hlocal]
  rw [Config.stack, hacts]
  obtain ⟨above, habove⟩ := stackOf_prefix inner (a' :: below)
  rw [← habove, List.getElem?_append_left (List.getElem?_eq_some_iff.mp hstack).1, hstack]

/-- A local that has had its turn is not set again by its call. -/
theorem not_setsLocal {a : Activation} {below : List Activation} (hr : Represents m c)
    (hp : a.PersistsAbove pool n below (c.current :: c.callers))
    (hlen : c.callers.length = below.length) {i : Nat} (hi : i < n) : ¬ m.SetsLocal i := by
  intro hset
  obtain ⟨rest, hcode⟩ := hr.code_eq hset rfl
  obtain ⟨inner, a', hacts, hp⟩ := hp
  obtain rfl : inner = [] := by
    have := congrArg List.length hacts
    rw [List.length_cons, List.length_append, List.length_cons, hlen] at this
    exact List.length_eq_zero_iff.mp (by omega)
  obtain ⟨rfl, -⟩ := List.cons.inj hacts
  obtain ⟨k, n', e, hn, hb⟩ := hp.turn
  rw [hcode] at hb
  cases hb with
  | ins hop | load hop => cases hop
  | setLocal => omega

/-- All functions that are being executed have the property, except for the program itself. -/
theorem frames_made {Q : Prototype → Prop} {a : Activation} {fr : Frame}
    {callers : List Activation} {frames : List Frame} {base : Nat} (hf : a.Matches base fr)
    (hm : FramesMatch callers frames) (hchain : CallChain a callers) (ha : a.Made Q)
    (hcallers : ∀ b ∈ callers, b.Made Q) :
    ∀ fr' ∈ fr :: frames, Q fr'.proto ∨ fr'.proto = (frames.getLast?.getD fr).proto := by
  induction callers generalizing a fr frames base with
  | nil =>
    cases frames with
    | nil => exact List.forall_mem_singleton.mpr (.inr rfl)
    | cons _ _ => cases hm
  | cons b callers ih =>
    cases frames with
    | nil => cases hm
    | cons fr₁ frames =>
      obtain ⟨hb, hm⟩ := hm
      obtain ⟨hfun, -, hchain⟩ := hchain
      obtain ⟨hmade, hcallers⟩ := List.forall_mem_cons.mp hcallers
      refine List.forall_mem_cons.mpr ⟨.inl ?_, ?_⟩
      · obtain ⟨id, proto, free, hself⟩ := Activation.exists_of_inFunction hfun
        have hclosure : a.self = fr.closure := by
          rcases hf.self with hnull | hclosure
          · rw [hself] at hnull
            cases hnull
          · exact hclosure
        have hmade := ha.self
        rw [hclosure] at hmade
        cases hmade with
        | closure hQ _ => exact hQ
      · rw [List.getLast?_cons]
        exact ih hb hm hchain hmade hcallers

/-- The free variables of a call are those of its closure. -/
theorem load?_eq (hr : Represents m c) {i : Instruction} {v : Value}
    (hv : c.current.load? i = some v) (hop : i.op ≠ .getLocal) (m' : Machine) :
    m'.load? m.frame i = some v := by
  have hself {id : Nat} {proto : Prototype} {free : List Value}
      (hs : c.current.self = .closure id proto free) :
      m.frame.closure = .closure id proto free := by
    rcases hr.current.self with hnull | hclosure
    · rw [hs] at hnull
      cases hnull
    · rw [← hclosure, hs]
  rcases i with ⟨op, operands⟩
  unfold Activation.load? at hv
  split at hv
  · exact absurd ‹_› hop
  · rename_i hop' hs
    have hfree := hself hs
    cases hop'
    cases hfree
    exact hv
  · rename_i hop' hs
    cases hop'
    rw [← hv, hs, ← hself hs]
    rfl
  · cases hv

/-- A local that is read has had its turn. -/
theorem keeps_read (hr : Represents m c) (ht : c.Typed fun _ => True) (hb : c.Binds k) {i : Nat}
    (hget : m.GetsLocal i) :
    ∃ v, m.stack.at? (m.frame.base + i) = some v ∧
      ∀ m', Machine.Reaches (fun x => m.depth ≤ x.depth) m m' →
        (m'.depth = m.depth → ¬ m'.SetsLocal i) ∧
          m'.stack.at? (m.frame.base + i) = some v := by
  obtain ⟨rest, hcode⟩ := hr.code_eq hget rfl
  obtain ⟨n, e, hbinds⟩ := hb.current
  have hlt : i < n := by
    rw [hcode] at hbinds
    cases hbinds with
    | ins hop => cases hop
    | load _ hlt _ => exact hlt rfl
  have hlocal : i < c.current.locals.length := by
    obtain ⟨e, hcheck, -⟩ := ht.current.code
    rw [hcode] at hcheck
    generalize c.current.temps.length = height at hcheck
    cases hcheck with
    | ins hu _ =>
      cases hu with
      | getLocal hi => exact c.current.shape_numLocals ▸ hi
  have hv := List.getElem?_eq_getElem hlocal
  refine ⟨_, hr.at?_local hv, fun m' hreach => ?_⟩
  obtain ⟨c', hr', -, hp⟩ := hr.persists ht hbinds hreach
  constructor
  · intro hdepth
    rw [hr.depth_eq, hr'.depth_eq] at hdepth
    exact hr'.not_setsLocal hp (Nat.succ.inj hdepth) hlt
  · have hat := hr'.at?_persisting hp hlt hv
    rwa [Int.natCast_add, ← hr.current.base] at hat

/-- A closure is made of the values that were loaded before, and they stay what their variables
hold. -/
theorem captures {m₀ : Machine} {c₀ : Config} (hr₀ : Represents m₀ c₀)
    (ht₀ : c₀.Typed fun _ => True) (hb₀ : c₀.Binds k) (hloads : m₀.Loads is m) {a : Nat}
    (hmake : m.instruction? = some ⟨.closure, [a, is.length]⟩) (hn : m.Next m') :
    ∃ id proto free, m'.stack.at? (m'.sp - 1) = some (.closure id proto free) ∧
      ∀ m'', Machine.Reaches (fun x => m.depth ≤ x.depth) m' m'' →
        is.map (m''.load? m.frame) = free.map some := by
  obtain ⟨code, vs, hcode₀, hvs, hr, ht⟩ := hr₀.loads ht₀ hloads
  have hlen : vs.length = is.length := by
    rw [← List.length_map (f := some), ← hvs, List.length_map]
  obtain ⟨rest, hcode⟩ := hr.code_eq hmake rfl
  obtain ⟨c', hnext, hr', -⟩ := hr.next ht hn
  obtain ⟨id, proto, temps, htemps⟩ : ∃ id proto temps,
      c'.current.temps = .closure id proto vs :: temps := by
    unfold Config.Next Config.step at hnext
    rw [hcode] at hnext
    obtain ⟨id, proto, htemps⟩ := Config.makeClosure_eq_next hnext
    change c'.current.temps = .closure id proto
      ((vs.reverse ++ c₀.current.temps).take is.length).reverse :: _ at htemps
    rw [← hlen, ← List.length_reverse, List.take_left, List.reverse_reverse] at htemps
    exact ⟨id, proto, _, htemps⟩
  have htop := @at?_below m' c' hr' 0 _ temps htemps
  rw [Int.natCast_zero, Int.sub_zero] at htop
  refine ⟨id, proto, vs, htop, fun m'' hreach => ?_⟩
  obtain ⟨n, e, hbinds⟩ := hb₀.current
  have hdepth : m.depth = m₀.depth := hr.depth_eq.trans hr₀.depth_eq.symm
  have hwithin := (hr₀.loads_within ht₀ hloads).with
    fun x hx => Nat.le_of_eq (hdepth.trans hx.property.symm)
  have hwhole := hwithin.trans (hreach.head hwithin.property hn)
  rw [hdepth] at hwhole
  obtain ⟨c'', hr'', -, hp⟩ := hr₀.persists ht₀ hbinds hwhole
  have hlt := Piece.Binds.getLocal_lt (hcode₀ ▸ hbinds) hloads.isCapture
  rw [← hvs]
  apply List.map_congr_left
  intro i hi
  obtain ⟨v, -, hv⟩ : ∃ v ∈ vs, some v = c₀.current.load? i := by
    have hmem : c₀.current.load? i ∈ vs.map some := hvs ▸ List.mem_map_of_mem hi
    exact List.mem_map.mp hmem
  rw [← hv]
  by_cases hop : i.op = .getLocal
  · have hlocal : c₀.current.locals[i.operands.getD 0 0]? = some v := by
      rw [hv, Activation.load?, hop]
    have hat := hr''.at?_persisting hp (hlt i hi hop) hlocal
    rw [Int.natCast_add, show ((stackOf c₀.callers).length : Int) = m.frame.base from
      hr.current.base.symm] at hat
    rw [Machine.load?, hop]
    exact hat
  · exact hr.load?_eq hv.symm hop m''

end Represents

/-- The loads before every step of a run are those that the code counts. -/
theorem Machine.Reaches.loaded {m₀ m : Machine} {c₀ : Config}
    (h : Machine.Reaches (fun _ => True) m₀ m) (hr : Represents m₀ c₀)
    (ht : c₀.Typed fun _ => True) (hb : c₀.Binds 0) :
    ∃ c m₁ is, Represents m c ∧ (c.Typed fun _ => True) ∧ c.Binds is.length ∧
      c.constants = c₀.constants ∧ Machine.Reaches (fun _ => True) m₀ m₁ ∧ m₁.Loads is m := by
  induction h with
  | start _ => exact ⟨c₀, m₀, [], hr, ht, hb, rfl, .start trivial, .nil m₀⟩
  | step hreach hn _ ih =>
    obtain ⟨c, m₁, is, hr, ht, hb, hconst, hm₁, hloads⟩ := ih
    obtain ⟨c', hnext, hr', ht'⟩ := hr.next ht hn
    have hkeeps := c.step_keeps
    rw [show c.step = .next c' from hnext] at hkeeps
    have hconst' : c'.constants = c₀.constants := hkeeps.1.trans hconst
    obtain ⟨k, hb', rfl | ⟨rfl, i, rest, hcode, hi⟩⟩ := hb.next ht hnext
    · exact ⟨c', _, [], hr', ht', hb', hconst', .step hreach hn trivial, .nil _⟩
    · have hfetch := hr.current.follows
      rw [hcode] at hfetch
      refine ⟨c', m₁, is ++ [i], hr', ht', ?_, hconst', hm₁, hloads.concat hfetch.of_ins.1 hi hn⟩
      rw [List.length_append]
      exact hb'

namespace Session

variable {s s₁ : Session} {program : Node} {code : Code} {P : Machine → Prop}

/-- All functions in the globals bind their locals in turn. -/
def Binds (s : Session) : Prop := s.globals.Made (Prototype.Binds s.constants)

theorem Binds.compile (h : s.Binds) (hs : s.Sound fun _ => True) {r : Except CompileStop Code}
    (hc : s.compile program = (r, s₁)) : s₁.Binds := by
  obtain ⟨hpool, -, he⟩ := compile_keeps hc hs.names
  have hglobals : s₁.globals = s.globals := by rw [he]
  unfold Binds
  rw [hglobals]
  exact fun i v hv => (h i v hv).mono fun _ hp => hp.mono hpool

/-- A program binds its locals in turn, and so do all functions that it has at hand. -/
theorem Binds.start (h : s.Binds) (hs : s.Sound fun _ => True)
    (hc : s.compile program = (.ok code, s₁)) (limits : Limits) (tracing : Bool) :
    ∃ c, Represents (s₁.machineWithin limits tracing code) c ∧ (c.Typed fun _ => True) ∧
      c.Binds 0 ∧ c.constants = s₁.constants ∧
      (s₁.machineWithin limits tracing code).frame.proto.Binds s₁.constants := by
  have hglobals := h.compile hs hc
  obtain ⟨line, statements, ps, d, rfl, ht, hf, rfl, rfl⟩ := compile_eq_ok.mp hc
  have hbinds := ht.binds ⟨⟨hs.names, trivial⟩, trivial⟩
  have hnested : d.env.nested = [] :=
    List.forall₂_nil_left_iff.mp (ht.leads ⟨hs.names, trivial⟩ hf).grows
  have hcode : Piece.Binds d.constants 0 0 ps 0 := by
    have hcode := hbinds.binds
    unfold Environment.shape at hcode
    rw [hnested] at hcode
    exact hcode
  refine ⟨_, .start hf .., hs.start_typed ht hf .., ⟨?_, ⟨0, 0, hcode⟩, List.forall_mem_nil _⟩, rfl,
    ps, ⟨hf, rfl⟩, hcode⟩
  exact ⟨hglobals, .null, ⟨.null, List.forall_mem_nil _, List.forall_mem_nil _⟩,
    List.forall_mem_nil _⟩

theorem Binds.after (h : s.Binds) (hs : s.Sound fun _ => True)
    (hc : s.compile program = (.ok code, s₁)) {limits : Limits} {tracing : Bool} {fuel : Nat}
    {r : Except Failure Value} {m' : Machine}
    (hr : (s₁.machineWithin limits tracing code).run? fuel = some (r, m')) :
    (s₁.after m').Binds := by
  obtain ⟨c₀, hrep, ht, hb, hconst, -⟩ := h.start hs hc limits tracing
  obtain ⟨m, hreach, hend⟩ := Machine.exists_of_run?_eq_some hr
  obtain ⟨c, _, is, hrm, htm, hbm, hconst', -⟩ := hreach.loaded hrep ht hb
  have hmade : c.globals.Made (Prototype.Binds s₁.constants) :=
    hconst ▸ hconst' ▸ hbm.made.globals
  change m'.globals.Made (Prototype.Binds s₁.constants)
  rcases hend with ⟨-, -, rfl⟩ | ⟨hf, stop, hstop, -⟩
  · rw [hrm.globals]
    exact hmade
  · rcases hrm.step_error htm hf hstop with hrep' | ⟨c', hstep, hrep'⟩
    · rw [hrep'.globals]
      exact hmade
    · rw [hrep'.globals, hbm.stop htm hstep]
      exact hmade

theorem Reached.binds (h : Reached P s) : s.Binds := by
  have hsound {s : Session} (hs : Reached P s) : s.Sound fun _ => True :=
    hs.sound (fun _ _ => trivial) fun m _ => m.measures_true
  refine h.preserves (fun color tracing maxSteps => ?_) (fun hs hb hc => hb.compile (hsound hs) hc)
    fun hs hb hc hr _ => hb.after (hsound hs) hc hr
  intro i v hv
  rw [← (Slots.get?_eq_some hv).2]
  exact .null

/-- A local that was read is never set again by its call, no two instructions of a function set the
same local, and none sets a parameter. So what a closure captures, copied from variables when it is
made, is what these variables hold for as long as their call lasts. -/
theorem Reached.captures_current {limits : Limits} {tracing : Bool} {m : Machine}
    (hs : Reached P s) (hc : s.compile program = (.ok code, s₁))
    (hm : Machine.Reaches (fun _ => True) (s₁.machineWithin limits tracing code) m) :
    (∀ i, m.GetsLocal i → ∃ v, m.stack.at? (m.frame.base + i) = some v ∧
      ∀ m', Machine.Reaches (fun x => m.depth ≤ x.depth) m m' →
        (m'.depth = m.depth → ¬ m'.SetsLocal i) ∧
          m'.stack.at? (m.frame.base + i) = some v) ∧
    (∀ fr ∈ m.frame :: m.callers, fr.proto.code.setLocals.Nodup ∧
      ∀ i ∈ fr.proto.code.setLocals, fr.proto.numParams ≤ i ∧ i < fr.proto.numLocals) ∧
    ∀ a n m', m.instruction? = some ⟨.closure, [a, n]⟩ → m.Next m' →
      ∃ m₀ is id proto free,
        Machine.Reaches (fun _ => True) (s₁.machineWithin limits tracing code) m₀ ∧
        m₀.Loads is m ∧ is.length = n ∧
        m'.stack.at? (m'.sp - 1) = some (.closure id proto free) ∧
        ∀ m'', Machine.Reaches (fun x => m.depth ≤ x.depth) m' m'' →
          is.map (m''.load? m.frame) = free.map some := by
  have hsound := hs.sound (fun _ _ => trivial) fun m _ => m.measures_true
  obtain ⟨c₀, hrep, ht₀, hb₀, hconst₀, hmain⟩ := hs.binds.start hsound hc limits tracing
  obtain ⟨c, m₁, is, hr, ht, hb, hconst, hm₁, hloads⟩ := hm.loaded hrep ht₀ hb₀
  refine ⟨fun i hget => hr.keeps_read ht hb hget, fun fr hfr => ?_, fun a n m' hmake hn => ?_⟩
  · have hproto : fr.proto.Binds s₁.constants := by
      rcases Represents.frames_made hr.current hr.callers ht.chain hb.made.current hb.made.callers
        fr hfr with hQ | hlast
      · exact hconst₀ ▸ hconst ▸ hQ
      · have hsame : fr.proto = (s₁.machineWithin limits tracing code).frame.proto :=
          hlast.trans (hm.main_proto hrep ht₀)
        exact hsame ▸ hmain
    exact hproto.setLocals
  · obtain ⟨rest, hcode⟩ := hr.code_eq hmake rfl
    have hle : n ≤ is.length := by
      obtain ⟨k, e, hbinds⟩ := hb.current
      rw [hcode] at hbinds
      cases hbinds with
      | ins hop | load hop => cases hop
      | closure hle => exact hle
    -- only the last `n` of the loads belong to the closure
    rw [← List.take_append_drop (is.length - n) is] at hloads
    obtain ⟨m₂, hfront, hback⟩ := hloads.of_append
    have hlen : (is.drop (is.length - n)).length = n := by
      rw [List.length_drop]
      omega
    have hm₂ := hm₁.trans hfront.reaches
    obtain ⟨c₂, _, _, hr₂, ht₂, hb₂, -⟩ := hm₂.loaded hrep ht₀ hb₀
    obtain ⟨id, proto, free, htop, hfree⟩ := hr₂.captures ht₂ hb₂ hback (hlen.symm ▸ hmake) hn
    exact ⟨m₂, _, id, proto, free, hm₂, hback, hlen, htop, hfree⟩

/-- A closure captures a local and a parameter. It is called behind another binding of the name of
that local, and both variables still hold what it has captured. -/
theorem Reached.captures_current_rebound :
    ∃ (program : Node) (code : Code) (s₁ : Session) (m m' m'' : Machine) (a : Nat)
      (is : List Instruction) (id : Nat) (proto : Prototype) (free : List Value),
      Session.compile {} program = (.ok code, s₁) ∧
      m.instruction? = some ⟨.closure, [a, 2]⟩ ∧ m.Next m' ∧
      m'.stack.at? (m'.sp - 1) = some (.closure id proto free) ∧
      Machine.Reaches (fun x => m.depth ≤ x.depth) m' m'' ∧ m''.depth = m.depth + 1 ∧
      is.length = 2 ∧ is.map (m''.load? m.frame) = free.map some := by
  let program : Node := .program none [
    .letStmt none (.ident none "f") (.fnLit none [.ident none "x"] (.block none [
      .letStmt none (.ident none "y")
        (.binary none (.ident none "x") "+" (.intLit none (.int 1))),
      .letStmt none (.ident none "g") (.fnLit none [] (.block none [
        .exprStmt none (.binary none (.ident none "y") "+" (.ident none "x"))]) none),
      .letStmt none (.ident none "y") (.intLit none (.int 7)),
      .exprStmt none (.call none (.ident none "g") [])]) none),
    .exprStmt none (.call none (.ident none "f") [.intLit none (.int 1)])]
  have hwalk : ((Session.compile {} program).1.toOption.bind fun code =>
      (((Session.compile {} program).2.machineWithin {} false code).walk? (fun _ => true) 11).bind
        fun m => (m.walk? (fun _ => true) 1).bind
        fun m' => (m'.walk? (fun x => decide (m.depth ≤ x.depth)) 5).filter
        fun m'' => decide (m.instruction? = some ⟨.closure, [1, 2]⟩ ∧
          m''.depth = m.depth + 1)).isSome = true := by
    decide +kernel
  clear_value program
  obtain ⟨m'', hm''⟩ := Option.isSome_iff_exists.mp hwalk
  obtain ⟨code, hcode, hm''⟩ := Option.bind_eq_some_iff.mp hm''
  obtain ⟨m, hm, hm''⟩ := Option.bind_eq_some_iff.mp hm''
  obtain ⟨m', hm', hm''⟩ := Option.bind_eq_some_iff.mp hm''
  obtain ⟨hm'', hcond⟩ := Option.filter_eq_some_iff.mp hm''
  obtain ⟨hmake, hdepth⟩ := of_decide_eq_true hcond
  have hc := compile_of_toOption hcode
  have hreach := (Machine.reaches_of_walk? hm).with fun _ _ => trivial
  have hn := Machine.next_of_walk? hm'
  have hlater := (Machine.reaches_of_walk? hm'').with fun m hr => of_decide_eq_true hr.property
  have hcaptures := captures_current (P := fun _ => True) (.new false false none) hc hreach
  obtain ⟨_, is, id, proto, free, -, -, hlen, htop, hfree⟩ := hcaptures.2.2 1 2 m' hmake hn
  exact ⟨program, code, _, m, m', m'', 1, is, id, proto, free, hc, hmake, hn, htop, hlater, hdepth,
    hlen, hfree m'' hlater⟩

end Session

end ClosureVM
