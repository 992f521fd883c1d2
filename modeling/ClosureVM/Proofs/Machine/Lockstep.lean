import ClosureVM.Proofs.Machine.Refinement

/-! Every step of a machine does what the configuration it represents does. -/
namespace ClosureVM

theorem MachineM.clear_carries {m : Machine} {values : List Value}
    (h : m.stack.Carries values) {n : Nat} (hs : values.length + n ≤ m.stack.size) :
    ∃ stack, MachineM.clear values.length n m = .ok () { m with stack } ∧
      stack.size = m.stack.size ∧ stack.Carries (values ++ List.replicate n .null) := by
  induction n generalizing m values with
  | zero => exact ⟨m.stack, rfl, rfl, by simpa using h⟩
  | succ n ih =>
    have hl : values.length < m.stack.size := by omega
    have hp : place? m.stack.size (values.length : Int) = some values.length := by
      rw [place?_natCast, if_pos hl]
    have hc := h.push hl .null
    let m₁ : Machine := { m with stack := m.stack.set values.length .null }
    have hs₁ : (values ++ [Value.null]).length + n ≤ m₁.stack.size := by
      simp only [m₁, Slots.size_set, List.length_append, List.length_singleton]
      omega
    obtain ⟨stack, he, hz, hc'⟩ := @ih m₁ (values ++ [.null]) hc hs₁
    refine ⟨stack, ?_, by rw [hz, Slots.size_set], ?_⟩
    · rw [List.length_append, List.length_singleton, Int.natCast_add] at he
      have hset : MachineM.setSlot values.length .null m = .ok () m₁ := by
        simp [MachineM.setSlot, hp, m₁]
      simpa [MachineM.clear, hset] using he
    · rwa [List.append_assoc, List.singleton_append, ← List.replicate_succ] at hc'

private theorem Entries.ofValues_short {entries : Entries} {values : List Value}
    (h : values.length < 2) : Entries.ofValues entries values = .ok entries := by
  cases values with
  | nil => rfl
  | cons k rest =>
    cases rest with
    | nil => rfl
    | cons v rest =>
      simp only [List.length_cons] at h
      omega

/-- Keys and values are read where they lie on the stack. -/
theorem MachineM.readEntries_carries {m : Machine} {front values : List Value}
    (h : m.stack.Carries (front ++ values)) (entries : Entries) {n : Nat}
    (hn : values.length = 2 * n) :
    MachineM.readEntries front.length entries n m =
      match Entries.ofValues entries values with
      | .ok entries => .ok entries m
      | .error f => .error (.fault f) m := by
  induction n generalizing front values entries with
  | zero => rw [Entries.ofValues_short (by omega)]; rfl
  | succ n ih =>
    match values, hn with
    | k :: v :: rest, hn =>
      have hk : m.stack.at? front.length = some k := h.at? (by simp)
      have hv : m.stack.at? ((front.length : Int) + 1) = some v := by
        rw [← Int.natCast_succ]
        exact h.at? (by simp)
      have hks : MachineM.slot front.length m = .ok k m := by
        simp [MachineM.slot, hk]
      have hvs : MachineM.slot ((front.length : Int) + 1) m = .ok v m := by
        simp [MachineM.slot, hv]
      simp only [MachineM.readEntries, EStateM.bind_apply, hks, hvs, Entries.ofValues]
      cases hkey : k.hashKey with
      | error f => rfl
      | ok key =>
        have hr := @ih (front ++ [k, v]) rest (by simpa using h) (entries.insert key v)
          (by simp only [List.length_cons] at hn; omega)
        have hl : ((front ++ [k, v]).length : Int) = (front.length : Int) + 2 := by simp
        rw [hl] at hr
        simpa only [MachineM.check, EStateM.pure_apply] using hr

namespace Represents

variable {m : Machine} {c : Config}

theorem write (h : Represents m c) (text : String) :
    Represents { m with output := m.output.push (.puts text) }
      { c with written := c.written ++ [text] } := by
  refine ⟨h.constants, h.globals, h.limits, h.tracing, h.lastPopped, ?_, ?_, h.fresh, h.sp,
    h.size, h.carries, h.current, h.callers⟩
  · simp [h.written, Output.puts?]
  · intro ht
    simp [h.untraced ht]

private theorem writeAll (h : Represents m c) (texts : List String) :
    ∃ m', (texts.forM fun text => MachineM.write (.puts text)) m = .ok () m' ∧
      Represents m' { c with written := c.written ++ texts } := by
  induction texts generalizing m c with
  | nil => exact ⟨m, rfl, by simpa using h⟩
  | cons text texts ih =>
    obtain ⟨m', he, hr⟩ := ih (h.write text)
    refine ⟨m', he, ?_⟩
    simpa using hr

theorem makeHash (h : Represents m c) (n : Nat) :
    (c.makeHash n).Covers (MachineM.makeHash n m) := by
  unfold Config.makeHash
  dsimp only
  split
  · rename_i hn
    have hcar := h.carries
    rw [c.stack_split n] at hcar
    have hlen : (c.current.temps.take n).reverse.length = 2 * (n / 2) := by
      rw [List.length_reverse, List.length_take]
      omega
    have hhalf : (n + 1) / 2 = n / 2 := by omega
    have hsp : m.sp - n = (c.withTemps (c.current.temps.drop n)).stack.length := by
      have := congrArg List.length (c.stack_split n)
      rw [List.length_append, List.length_reverse, List.length_take,
        Nat.min_eq_left hn.1] at this
      rw [h.sp, Config.height]
      omega
    have hread := MachineM.readEntries_carries hcar [] hlen
    rw [← hhalf] at hread
    cases he : Entries.ofValues [] (c.current.temps.take n).reverse with
    | error f =>
      refine ⟨m, ?_, h⟩
      simp [MachineM.makeHash, hsp, hread, he]
    | ok entries =>
      have hp := (h.dropTemps n).pushNew (.hash · entries)
      have hm : MachineM.makeHash n m =
          (MachineM.allocate >>= fun id => MachineM.push (.hash id entries))
            { m with sp := (c.withTemps (c.current.temps.drop n)).height } := by
        simp [MachineM.makeHash, hsp, hread, he, Config.height]
      rwa [hm]
  · trivial

theorem makeClosure (h : Represents m c) (k n : Nat) :
    (c.makeClosure k n).Covers (MachineM.makeClosure k n m) := by
  unfold Config.makeClosure
  split
  · rename_i proto hk
    dsimp only
    split
    · rename_i hn
      obtain ⟨m₁, he, h₁⟩ := h.popMany hn
      have hp := h₁.pushNew (.closure · proto (c.current.temps.take n).reverse)
      have hm : MachineM.makeClosure k n m =
          (MachineM.allocate >>= fun id =>
            MachineM.push (.closure id proto (c.current.temps.take n).reverse)) m₁ := by
        simp [MachineM.makeClosure, h.constants, hk, he]
      rwa [hm]
    · trivial
  · trivial

/-- A frame for a closure starts at its arguments, and the other locals are cleared. -/
theorem newFrame (h : Represents m c) {fr : Frame} {n : Nat} {temps : List Value}
    {code : List Piece} (hd : c.current.temps.drop n = fr.closure :: temps)
    (hb : fr.proto.HasBody code) (hip : fr.ip = 0) (hbase : fr.base = m.sp - n)
    (hn : n ≤ fr.proto.numLocals) (hs : c.height - n + fr.proto.numLocals ≤ c.limits.stackSize) :
    ∃ stack, MachineM.clear m.sp (fr.proto.numLocals.toNat - n)
        { m with frame := fr, callers := m.frame :: m.callers } =
        .ok () { m with stack, frame := fr, callers := m.frame :: m.callers } ∧
      Represents
        { m with
          stack, sp := m.sp - n + fr.proto.numLocals, frame := fr
          callers := m.frame :: m.callers }
        { c with
          current :=
            { self := fr.closure, code
              locals := (c.current.temps.take n).reverse ++
                List.replicate (fr.proto.numLocals.toNat - n) .null }
          callers := c.current.withTemps (fr.closure :: temps) :: c.callers } := by
  have hlen : (c.current.temps.take n).reverse.length = n := by
    have := congrArg List.length hd
    rw [List.length_drop, List.length_cons] at this
    rw [List.length_reverse, List.length_take, Nat.min_eq_left (by omega)]
  have hsplit : c.stack = stackOf (c.current.withTemps (fr.closure :: temps) :: c.callers) ++
      (c.current.temps.take n).reverse := by
    rw [c.stack_split n, hd]
    rfl
  have hheight : c.height =
      (stackOf (c.current.withTemps (fr.closure :: temps) :: c.callers)).length + n := by
    have := congrArg List.length hsplit
    rwa [List.length_append, hlen] at this
  have hsize : c.stack.length + (fr.proto.numLocals.toNat - n) ≤ m.stack.size := by
    have := h.size
    simp only [Config.height] at hs
    omega
  obtain ⟨stack, hc, hz, hcar⟩ := @MachineM.clear_carries
    { m with frame := fr, callers := m.frame :: m.callers } c.stack h.carries _ hsize
  refine ⟨stack, ?_, h.constants, h.globals, h.limits, h.tracing, h.lastPopped, h.written,
    h.untraced, h.fresh, ?_, hz.trans h.size, ?_, ⟨?_, ?_, .inr rfl, ?_⟩,
    h.current.withTemps _, h.callers⟩
  · nth_rewrite 1 [h.sp]
    exact hc
  · rw [Config.height_eq, h.sp, hheight]
    dsimp only
    rw [List.length_append, hlen, List.length_replicate, List.length_nil]
    omega
  · rw [Config.stack_eq]
    rw [hsplit, List.append_assoc] at hcar
    simpa using hcar
  · rw [hip]
    exact hb.follows
  · rw [hbase, h.sp, hheight]
    dsimp only
    omega
  · dsimp only
    rw [List.length_append, hlen, List.length_replicate]
    omega

theorem enter (h : Represents m c) {id : Nat} {proto : Prototype} {free : List Value} {n : Nat}
    {temps : List Value} (hd : c.current.temps.drop n = .closure id proto free :: temps) :
    (c.enter (.closure id proto free) proto (c.current.temps.take n).reverse temps).Covers
      (MachineM.callClosure id proto free n m) := by
  have hn : n ≤ c.current.temps.length := by
    have := congrArg List.length hd
    rw [List.length_drop, List.length_cons] at this
    omega
  have hl : (c.current.temps.take n).reverse.length = n := by
    rw [List.length_reverse, List.length_take, Nat.min_eq_left hn]
  unfold Config.enter
  simp only [hl]
  by_cases ha : (n : Int) = proto.numParams
  · rw [if_neg (not_not_intro ha)]
    by_cases ho : c.limits.stackSize < c.height - n + proto.numLocals
    · rw [if_pos ho]
      refine ⟨m, ?_, h⟩
      simp [MachineM.callClosure, h.sp, h.limits, if_neg (not_not_intro ha), if_pos ho]
    · rw [if_neg ho]
      have hdepth : (m.depth : Int) = c.callers.length + 1 := by
        rw [Machine.depth, ← h.callers.length_eq]
        rfl
      by_cases hf : c.limits.maxFrames ≤ c.callers.length + 1
      · rw [if_pos hf]
        refine ⟨m, ?_, h⟩
        simp [MachineM.callClosure, MachineM.pushFrame, h.sp, h.limits, h.tracing, hdepth,
          if_neg (not_not_intro ha), if_neg ho, if_pos hf]
      · rw [if_neg hf]
        cases hb : proto.body? with
        | none => trivial
        | some code =>
          dsimp only
          split
          · rename_i hnl
            obtain ⟨stack, hc, hr⟩ := @newFrame _ _ h { id, proto, free, base := m.sp - n } _ _ _
              hd (Prototype.hasBody_of_body?_eq hb) rfl rfl hnl (Int.not_lt.mp ho)
            refine ⟨_, ?_, hr⟩
            have hclear : (m.sp - n + proto.numLocals - m.sp).toNat =
                proto.numLocals.toNat - n := by omega
            have ho' : ¬ m.limits.stackSize < m.sp - n + proto.numLocals := by
              rwa [h.sp, h.limits]
            have hf' : ¬ m.limits.maxFrames ≤ m.depth := by
              rwa [hdepth, h.limits]
            simp [MachineM.callClosure, MachineM.pushFrame, if_neg (not_not_intro ha), if_neg ho',
              if_neg hf', hclear, hc]
          · trivial
  · rw [if_pos ha]
    refine ⟨m, ?_, h⟩
    simp [MachineM.callClosure, if_pos ha]

theorem callBuiltin (h : Represents m c) (b : Builtin) {n : Nat} {temps : List Value}
    {v : Value} (hd : c.current.temps.drop n = v :: temps) :
    (c.callBuiltin b (c.current.temps.take n).reverse temps).Covers
      (MachineM.callBuiltin b n m) := by
  have hn : n + 1 ≤ c.current.temps.length := by
    have := congrArg List.length hd
    rw [List.length_drop, List.length_cons] at this
    omega
  have ht := @top _ _ h n (by omega)
  have ha : MachineM.allocate m = .ok c.fresh { m with fresh := m.fresh + 1 } := by
    rw [← h.fresh]
    rfl
  unfold Config.callBuiltin
  dsimp only
  cases hb : b.apply c.fresh (c.current.temps.take n).reverse with
  | error f =>
    refine ⟨_, ?_, h.allocate⟩
    simp [MachineM.callBuiltin, ht, ha, hb]
  | ok reply =>
    obtain ⟨m₂, hw, h₂⟩ := h.allocate.writeAll reply.written
    have hrest : c.current.temps.drop (n + 1) = temps := by
      rw [← List.drop_drop, hd]
      rfl
    have h₃ := h₂.dropTemps (n + 1)
    rw [hrest] at h₃
    have hsp : m₂.sp - n - 1 = (c.withTemps temps).height := by
      rw [h₂.sp, Config.height_eq, Config.height_eq, ← hrest]
      simp only [Config.withTemps, Activation.withTemps, List.length_drop]
      omega
    have hp := h₃.push reply.value
    have hm : MachineM.callBuiltin b n m =
        MachineM.push reply.value { m₂ with sp := (c.withTemps temps).height } := by
      simp only [MachineM.callBuiltin, EStateM.bind_apply, ht, ha, hb, MachineM.check,
        EStateM.pure_apply, hw, MachineM.sp, MachineM.setSp, EStateM.get_apply,
        EStateM.modify_apply, hsp]
    rw [hm]
    exact hp

/-- The value below `n` others on the stack. -/
theorem at?_below (h : Represents m c) {n : Nat} {v : Value} {temps : List Value}
    (hd : c.current.temps.drop n = v :: temps) : m.stack.at? (m.sp - 1 - n) = some v := by
  have hl : c.current.temps.length = n + temps.length + 1 := by
    have := congrArg List.length hd
    rw [List.length_drop, List.length_cons] at this
    omega
  have hst : c.stack = (c.withTemps temps).stack ++
      ([v] ++ (c.current.temps.take n).reverse) := by
    rw [c.stack_split n, hd, ← List.append_assoc]
    exact congrArg (· ++ _) ((c.withTemps temps).stack_withTemps_cons v)
  have hs : c.stack[(c.withTemps temps).height]? = some v := by
    rw [hst, Config.height, List.getElem?_append_right (Nat.le_refl _), Nat.sub_self]
    rfl
  have hh : ((c.withTemps temps).height : Int) = m.sp - 1 - n := by
    rw [h.sp, c.height_eq, Config.height_eq, hl]
    simp only [Config.withTemps, Activation.withTemps]
    omega
  rw [← hh]
  exact h.carries.at? hs

theorem call (h : Represents m c) (n : Nat) : (c.call n).Covers (MachineM.call n m) := by
  unfold Config.call
  dsimp only
  split
  · trivial
  · rename_i callee temps hd
    have hv : MachineM.slot (m.sp - 1 - n) m = .ok callee m := by
      simp [MachineM.slot, h.at?_below hd]
    have hm : ∀ f : Value → MachineM Unit,
        (MachineM.sp >>= fun sp => MachineM.slot (sp - 1 - n) >>= f) m = f callee m := by
      intro f
      simp [hv]
    rw [MachineM.call, hm]
    cases callee with
    | closure id proto free => exact h.enter hd
    | builtin b => exact h.callBuiltin b hd
    | _ => exact ⟨m, rfl, h⟩

theorem leave (h : Represents m c) (v : Value) : (c.leave v).Covers (MachineM.leave v m) := by
  unfold Config.leave
  split
  · trivial
  · rename_i caller callers hc
    split
    · trivial
    · rename_i w temps ht
      obtain ⟨fr, frames, hm, hfr, hframes⟩ : ∃ fr frames, m.callers = fr :: frames ∧
          caller.Matches (stackOf callers).length fr ∧ FramesMatch callers frames := by
        have hf := h.callers
        rw [hc] at hf
        cases hm : m.callers with
        | nil => rw [hm] at hf; exact absurd hf id
        | cons fr frames => rw [hm] at hf; exact ⟨fr, frames, rfl, hf⟩
      have hsplit : stackOf (caller :: callers) =
          stackOf (caller.withTemps temps :: callers) ++ [w] := by
        simp [stackOf, Activation.values, Activation.withTemps, ht]
      have hbase : m.frame.base - 1 = (stackOf (caller.withTemps temps :: callers)).length := by
        rw [h.current.base, hc, hsplit, List.length_append, List.length_singleton]
        omega
      have hcar : m.stack.Carries (stackOf (caller.withTemps temps :: callers)) := by
        have := h.carries
        rw [c.stack_eq, hc, hsplit] at this
        exact this.of_append.of_append
      have hr : Represents
          { m with frame := fr, callers := frames, sp := m.frame.base - 1 }
          { c with current := caller.withTemps temps, callers } :=
        ⟨h.constants, h.globals, h.limits, h.tracing, h.lastPopped, h.written, h.untraced,
          h.fresh, hbase, h.size, hcar, hfr.withTemps _, hframes⟩
      have hp := hr.push v
      have he : MachineM.leave v m = MachineM.push v
          { m with frame := fr, callers := frames, sp := m.frame.base - 1 } := by
        simp [MachineM.leave, MachineM.popFrame, hm]
      rwa [he]

/-- The two topmost values are popped in turn. -/
theorem binary (h : Represents m c) (f : Value → Value → Except Stop Value)
    (g : Value → Value → MachineM Unit)
    (hg : ∀ left right, g left right = MachineM.ofExcept (f left right) >>= MachineM.push) :
    (c.binary f).Covers
      ((MachineM.pop >>= fun right => MachineM.pop >>= fun left => g left right) m) := by
  unfold Config.binary
  split
  · rename_i right left temps ht
    obtain ⟨he₁, h₁⟩ := h.pop ht
    obtain ⟨he₂, h₂⟩ := h₁.pop rfl
    rw [EStateM.bind_ok he₁, EStateM.bind_ok he₂, hg]
    exact h₂.pushResult _
  · trivial

/-- An instruction that begins by popping a value. -/
theorem bindPop (h : Represents m c) {f : Value → MachineM Unit} {e : Effect}
    (hnil : c.current.temps = [] → e = .stuck)
    (hcons : ∀ v temps m', c.current.temps = v :: temps → Represents m' (c.withTemps temps) →
      e.Covers (f v m')) :
    e.Covers ((MachineM.pop >>= f) m) := by
  cases ht : c.current.temps with
  | nil =>
    rw [hnil ht]
    trivial
  | cons v temps =>
    obtain ⟨he, h'⟩ := h.pop ht
    rw [EStateM.bind_ok he]
    exact hcons v temps _ ht h'

theorem execute (h : Represents m c) (op : Opcode) (a b : Nat) :
    (c.execute op a b).Covers (MachineM.execute op a b m) := by
  cases op with
  | constant =>
    have hm : MachineM.execute .constant a b m =
      (MachineM.need m.constants[a]? >>= MachineM.push) m := rfl
    rw [hm, h.constants]
    exact h.pushFound _
  | getGlobal =>
    have hm : MachineM.execute .getGlobal a b m =
      (MachineM.need (m.globals.get? a) >>= MachineM.push) m := rfl
    rw [hm, h.globals]
    exact h.pushFound _
  | getBuiltin =>
    simp only [Config.execute, MachineM.execute]
    cases Builtin.all[a]? with
    | none => trivial
    | some builtin => exact h.push _
  | getLocal =>
    simp only [Config.execute]
    cases hv : c.current.locals[a]? with
    | none => trivial
    | some v =>
      have hm : MachineM.execute .getLocal a b m = MachineM.push v m := by
        simp [MachineM.execute, h.getLocal hv]
      rw [hm]
      exact h.push v
  | getFree =>
    simp only [Config.execute]
    split
    · rename_i id proto free hself
      obtain hnull | hcl := h.current.self
      · simp [hself] at hnull
      · rw [hself, Frame.closure, Value.closure.injEq] at hcl
        have hm : MachineM.execute .getFree a b m =
          (MachineM.need m.frame.free[a]? >>= MachineM.push) m := rfl
        rw [hm, ← hcl.2.2]
        exact h.pushFound _
    · trivial
  | currentClosure =>
    simp only [Config.execute]
    split
    · rename_i hself
      obtain hnull | hcl := h.current.self
      · simp [hself] at hnull
      · have hm : MachineM.execute .currentClosure a b m = MachineM.push m.frame.closure m := rfl
        rw [hm, ← hcl]
        exact h.push _
    · trivial
  | add | sub | mul | div => exact h.binary _ _ fun _ _ => rfl
  | equal | notEqual | greaterThan =>
    refine h.binary _ _ fun left right => ?_
    cases Value.compare _ left right <;> rfl
  | index =>
    refine h.binary _ _ fun left right => ?_
    cases hi : left.index right <;> simp only [MachineM.index, hi] <;> rfl
  | pop =>
    refine h.bindPop (fun ht => by simp only [Config.execute, ht]) fun v temps m' ht h' => ?_
    simp only [Config.execute, ht]
    have hcallers : m'.callers.isEmpty = c.callers.isEmpty := by
      have hl : c.callers.length = m'.callers.length := h'.callers.length_eq
      cases hc : c.callers <;> cases hm : m'.callers <;> simp_all
    rw [EStateM.modify_apply, hcallers]
    cases c.callers.isEmpty with
    | true => exact ⟨_, rfl, h'.setLastPopped v⟩
    | false => exact ⟨_, rfl, h'⟩
  | bang =>
    refine h.bindPop (fun ht => by simp only [Config.execute, ht]) fun v temps m' ht h' => ?_
    simp only [Config.execute, ht]
    exact h'.push _
  | minus =>
    refine h.bindPop (fun ht => by simp only [Config.execute, ht]) fun v temps m' ht h' => ?_
    simp only [Config.execute, ht]
    exact h'.pushResult _
  | setGlobal =>
    refine h.bindPop (fun ht => by simp only [Config.execute, ht]) fun v temps m' ht h' => ?_
    simp only [Config.execute, ht]
    split
    · rename_i ha
      have ha' : ¬ m'.globals.size ≤ a := by
        rw [h'.globals]
        exact Nat.not_le.mpr ha
      refine ⟨_, ?_, h'.setGlobal a v⟩
      simp [if_neg ha']
    · trivial
  | setLocal =>
    refine h.bindPop (fun ht => by simp only [Config.execute, ht]) fun v temps m' ht h' => ?_
    simp only [Config.execute, ht]
    split
    · rename_i ha
      obtain ⟨m₂, he, h₂⟩ := h'.setLocal ha v
      exact ⟨m₂, he, h₂⟩
    · trivial
  | returnValue =>
    refine h.bindPop (fun ht => by simp only [Config.execute, ht]) fun v temps m' ht h' => ?_
    simp only [Config.execute, ht]
    exact h'.leave v
  | array =>
    simp only [Config.execute]
    split
    · rename_i hn
      obtain ⟨m', he, h'⟩ := h.popMany hn
      have hm : MachineM.execute .array a b m = (MachineM.allocate >>= fun id =>
          MachineM.push (.array id (c.current.temps.take a).reverse)) m' := EStateM.bind_ok he
      rw [hm]
      exact h'.pushNew _
    · trivial
  | pushTrue => exact h.push (.bool true)
  | pushFalse => exact h.push (.bool false)
  | pushNull => exact h.push .null
  | jump | jumpNotTruthy => trivial
  | hash => exact h.makeHash a
  | call => exact h.call a
  | closure => exact h.makeClosure a b
  | returnNull => exact h.leave .null

end Represents
end ClosureVM
