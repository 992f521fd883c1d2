import ClosureVM.Proofs.Compiler.Correspondence
import ClosureVM.Proofs.Evaluation.Calls
import ClosureVM.Proofs.Evaluation.Reads

/-! What an evaluation comes to depends on the names that the tree reads and on nothing else that
is in scope. -/
namespace ClosureVM

/-- Two evaluations have come to the same, as far as the `known` names tell. -/
structure Progress.Alike (known : String → Prop) (p p' : Progress) : Prop where
  scope : ∀ x, known x → (p.scope.lookup x).map Datum.trim = (p'.scope.lookup x).map Datum.trim
  result : p.result.trim = p'.result.trim
  written : p.written = p'.written
  fresh : p.fresh = p'.fresh

namespace Progress.Alike

variable {known known' : String → Prop} {p p' : Progress}

theorem refl (known : String → Prop) (p : Progress) : p.Alike known p :=
  ⟨fun _ _ => rfl, rfl, rfl, rfl⟩

theorem mono (h : p.Alike known p') (hk : ∀ x, known' x → known x) : p.Alike known' p' :=
  ⟨fun x hx => h.scope x (hk x hx), h.result, h.written, h.fresh⟩

/-- Nothing is bound. -/
theorem keep (h : p.Alike known p') : p.Alike (fun z => known z ∨ z ∈ []) p' :=
  h.mono fun _ hz => hz.resolve_right List.not_mem_nil

/-- A new binding makes its name known. -/
theorem cons (h : p.Alike known p') {x : String} {d d' : Datum} (hd : d.trim = d'.trim) :
    Alike (fun z => known z ∨ z ∈ [x]) { p with scope := (x, d) :: p.scope }
      { p' with scope := (x, d') :: p'.scope } := by
  refine ⟨fun z hz => ?_, h.result, h.written, h.fresh⟩
  by_cases hzx : z = x
  · subst hzx
    rw [lookup_cons_self, lookup_cons_self, Option.map_some, Option.map_some, hd]
  · rw [lookup_cons_ne hzx, lookup_cons_ne hzx]
    exact h.scope z (hz.resolve_right fun hz => hzx (List.mem_singleton.mp hz))

end Progress.Alike

def Interrupt.trim : Interrupt → Interrupt
  | .returned d => .returned d.trim
  | e => e

/-- Two evaluations end alike, where `f` is what can be told of their values. -/
inductive SameEnding {α β : Type} (f : α → β) (known : String → Prop) :
    EStateM.Result Interrupt Progress α → EStateM.Result Interrupt Progress α → Prop
  | ok {a a' : α} {p p' : Progress} : f a = f a' → p.Alike known p' →
      SameEnding f known (.ok a p) (.ok a' p')
  | error {e e' : Interrupt} {p p' : Progress} : e.trim = e'.trim →
      p.Alike (fun _ => False) p' → SameEnding f known (.error e p) (.error e' p')

namespace SameEnding

variable {α β γ δ : Type} {f : α → β} {g : γ → δ} {known known' : String → Prop} {p p' : Progress}

theorem mono {r r' : EStateM.Result Interrupt Progress α} (h : SameEnding f known r r')
    (hk : ∀ z, known' z → known z) : SameEnding f known' r r' := by
  cases h with
  | ok ha hp => exact .ok ha (hp.mono hk)
  | error ht hp => exact .error ht hp

theorem bind {x y : EvalM α} {k k' : α → EvalM γ} (hx : SameEnding f known (x p) (y p'))
    (hk : ∀ {a a' q q'}, f a = f a' → Progress.Alike known q q' →
      SameEnding g known' (k a q) (k' a' q')) :
    SameEnding g known' ((x >>= k) p) ((y >>= k') p') := by
  rw [EStateM.bind_apply, EStateM.bind_apply]
  generalize x p = r at hx
  generalize y p' = r' at hx
  cases hx with
  | ok ha hp => exact hk ha hp
  | error ht hp => exact .error ht hp

theorem discard {x y : EvalM α} (hx : SameEnding f known (x p) (y p')) :
    SameEnding id known (Functor.discard x p) (Functor.discard y p') := by
  rw [EStateM.discard_eq, EStateM.discard_eq]
  exact hx.bind fun _ hq => .ok rfl hq

end SameEnding

/-- Evaluations that end alike wherever the names they read stand for the same. Behind them, the
names which they bind do so too. -/
structure Coincide {α β : Type} (f : α → β) (reads lets : List String) (x y : EvalM α) : Prop where
  ends {known : String → Prop} {p p' : Progress} : (∀ z ∈ reads, known z) → p.Alike known p' →
    SameEnding f (fun z => known z ∨ z ∈ lets) (x p) (y p')

/-- What is evaluated depends on the names it reads, and on no others. -/
abbrev Steady {α β : Type} (f : α → β) (reads lets : List String) (x : EvalM α) : Prop :=
  Coincide f reads lets x x

theorem Except.map_mapError {ε ε' α β : Type} (r : Except ε α) (f : α → β) (g : ε → ε') :
    (r.mapError g).map f = (r.map f).mapError g := by
  cases r <;> rfl

namespace Coincide

variable {α β γ δ : Type} {f : α → β} {g : γ → δ} {reads reads' lets lets' : List String}
  {x y : EvalM α}

theorem mono (h : Coincide f reads lets x y) (hr : reads ⊆ reads') (hl : lets' ⊆ lets) :
    Coincide f reads' lets' x y where
  ends hk hp :=
    (h.ends (fun z hz => hk z (hr hz)) hp).mono fun z hz => hz.imp_right (@hl z)

theorem bind {k k' : α → EvalM γ} (hx : Coincide f reads lets x y)
    (hk : ∀ a a', f a = f a' → Coincide g reads' lets' (k a) (k' a')) :
    Coincide g (reads ++ unbound lets reads') (lets ++ lets') (x >>= k) (y >>= k') where
  ends {known p p'} hr hp := by
    obtain ⟨hr₁, hr₂⟩ := List.forall_mem_append.mp hr
    -- what the second part reads is known before, or bound by the first part
    have hknown : ∀ z ∈ reads', known z ∨ z ∈ lets := by
      intro z hz
      by_cases hl : z ∈ lets
      · exact .inr hl
      · exact .inl (hr₂ z (mem_unbound.mpr ⟨hz, hl⟩))
    refine (hx.ends hr₁ hp).bind fun ha hq => ((hk _ _ ha).ends hknown hq).mono fun z hz => ?_
    rw [List.mem_append] at hz
    exact or_assoc.mpr hz

/-- What follows reads and binds nothing. -/
theorem andThen {k k' : α → EvalM γ} (hx : Coincide f reads lets x y)
    (hk : ∀ a a', f a = f a' → Coincide g [] [] (k a) (k' a')) :
    Coincide g reads lets (x >>= k) (y >>= k') :=
  (hx.bind hk).mono (by simp [unbound]) (by simp)

theorem pure {a a' : α} (h : f a = f a') : Coincide f [] [] (Pure.pure a) (Pure.pure a') :=
  ⟨fun _ hp => .ok h hp.keep⟩

theorem throw {e e' : Interrupt} (h : e.trim = e'.trim) :
    Coincide f reads lets (throwThe Interrupt e) (throwThe Interrupt e') :=
  ⟨fun _ hp => .error h (hp.mono fun _ => False.elim)⟩

theorem discard (hx : Coincide f reads lets x y) :
    Coincide id reads lets (Functor.discard x) (Functor.discard y) :=
  ⟨fun hr hp => (hx.ends hr hp).discard⟩

theorem need {o o' : Option α} (h : o.map f = o'.map f) :
    Coincide f [] [] (EvalM.need o) (EvalM.need o') := by
  cases o with
  | none =>
    cases o' with
    | none => exact throw rfl
    | some a' => cases h
  | some a =>
    cases o' with
    | none => cases h
    | some a' => exact pure (Option.some.inj h)

theorem lift {r r' : Except Stop α} (h : r.map f = r'.map f) :
    Coincide f [] [] (EvalM.lift r) (EvalM.lift r') := by
  cases r with
  | error s =>
    cases r' with
    | error s' =>
      cases h
      exact throw rfl
    | ok a' => cases h
  | ok a =>
    cases r' with
    | error s' => cases h
    | ok a' => exact pure (Except.ok.inj h)

theorem identity : Coincide id [] [] EvalM.identity EvalM.identity where
  ends _ hp :=
    .ok hp.fresh ⟨hp.keep.scope, hp.result, hp.written, congrArg (· + 1) hp.fresh⟩

theorem bindName (name : String) {d d' : Datum} (h : d.trim = d'.trim) :
    Coincide id [] [name] (EvalM.bindName name d) (EvalM.bindName name d') where
  ends _ hp := .ok rfl (hp.cons h)

theorem skip (names : List String) :
    Coincide id [] names (EvalM.skip names) (EvalM.skip names) := by
  induction names with
  | nil => exact pure rfl
  | cons name names ih =>
    exact ((bindName name rfl).bind fun _ _ _ => ih).mono (by simp [unbound]) (by simp)

theorem drop {d d' : Datum} (h : d.trim = d'.trim) :
    Coincide Datum.trim [] [] (EvalM.drop d) (EvalM.drop d') where
  ends _ hp := .ok rfl ⟨hp.keep.scope, h, hp.written, hp.fresh⟩

theorem write {lines lines' : List String} (h : lines = lines') :
    Coincide id [] [] (modify fun p : Progress => { p with written := p.written ++ lines })
      (modify fun p : Progress => { p with written := p.written ++ lines' }) where
  ends _ hp := .ok rfl ⟨hp.keep.scope, hp.result, congrArg₂ _ hp.written h, hp.fresh⟩

theorem ident (name : String) :
    Coincide Datum.trim [name] [] (do EvalM.need ((← get).scope.lookup name))
      (do EvalM.need ((← get).scope.lookup name)) where
  ends hr hp :=
    (need (hp.scope name (hr name List.mem_cons_self))).ends (List.forall_mem_nil _) hp

theorem makeClosure (params : List Node) (body : Node) (name : Option String) :
    Coincide Datum.trim (freeReads params name body.reads) []
      (EvalM.makeClosure params body name) (EvalM.makeClosure params body name) where
  ends hr hp := by
    refine .ok (Datum.trim_closure_eq_iff.mpr ⟨hp.fresh, rfl, rfl, rfl, fun x hx => ?_⟩) ?_
    · exact hp.scope x (hr x hx)
    · exact ⟨hp.keep.scope, hp.result, hp.written, congrArg (· + 1) hp.fresh⟩

theorem unary (op : String) {d d' : Datum} (h : d.trim = d'.trim) :
    Coincide Datum.trim [] [] (EvalM.unary op d) (EvalM.unary op d') := by
  unfold EvalM.unary
  cases hop : Datum.unaryOperator? op with
  | none => exact throw rfl
  | some f =>
    refine lift ?_
    rw [Datum.unaryOperator?_trim hop, Datum.unaryOperator?_trim hop, h]

theorem operate (op : String) {a a' b b' : Datum} (ha : a.trim = a'.trim) (hb : b.trim = b'.trim) :
    Coincide Datum.trim [] [] (EvalM.operate op a b) (EvalM.operate op a' b') := by
  unfold EvalM.operate
  cases hop : Datum.binaryOperator? op with
  | none => exact throw rfl
  | some f =>
    refine lift ?_
    rw [Datum.binaryOperator?_trim hop, Datum.binaryOperator?_trim hop, ha, hb]

theorem callBuiltin (b : Builtin) {args args' : List Datum}
    (h : args.map Datum.trim = args'.map Datum.trim) :
    Coincide Datum.trim [] [] (EvalM.callBuiltin b args) (EvalM.callBuiltin b args') := by
  refine identity.andThen fun i i' hi => ?_
  obtain rfl : i = i' := hi
  refine (lift (f := Prod.map Datum.trim id) ?_).andThen fun r r' hr => ?_
  · rw [Except.map_mapError, Except.map_mapError, Builtin.applyTo_trim, Builtin.applyTo_trim, h]
  · obtain ⟨hd, hlines⟩ := Prod.ext_iff.mp hr
    exact (write hlines).andThen fun _ _ _ => pure hd

/-- The caller goes on in its own scope. -/
theorem within {s s' : Bindings} {body body' : EvalM Datum}
    (hs : ∀ z ∈ reads, (s.lookup z).map Datum.trim = (s'.lookup z).map Datum.trim)
    (hb : Coincide Datum.trim reads lets body body') :
    Coincide Datum.trim [] [] (EvalM.within s body) (EvalM.within s' body') where
  ends {known p p'} _ hp := by
    have hin : Progress.Alike (· ∈ reads) { p with scope := s } { p' with scope := s' } :=
      ⟨hs, hp.result, hp.written, hp.fresh⟩
    have he := hb.ends (fun _ hz => hz) hin
    unfold EvalM.within
    generalize body { p with scope := s } = r at he
    generalize body' { p' with scope := s' } = r' at he
    cases he with
    | ok hd hq => exact .ok hd ⟨hp.keep.scope, hp.result, hq.written, hq.fresh⟩
    | @error e e' q q' ht hq =>
      have hout : Progress.Alike (fun _ => False) { q with scope := p.scope, result := p.result }
          { q' with scope := p'.scope, result := p'.result } :=
        ⟨fun _ => False.elim, hp.result, hq.written, hq.fresh⟩
      cases e with
      | returned d =>
        cases e' with
        | returned d' =>
          exact .ok (Interrupt.returned.inj ht) ⟨hp.keep.scope, hp.result, hq.written, hq.fresh⟩
        | _ => cases ht
      | _ =>
        cases e' with
        | returned d' => cases ht
        | _ => exact .error ht hout

end Coincide

private theorem Node.filterMap_name? {params : List Node} {names : List String}
    (h : params.mapM Node.name? = some names) : params.filterMap Node.name? = names := by
  induction params generalizing names with
  | nil =>
    cases h
    rfl
  | cons param params ih =>
    rw [List.mapM_cons, Option.bind_eq_bind, Option.bind_eq_some_iff] at h
    obtain ⟨name, hname, h⟩ := h
    obtain ⟨rest, hrest, ⟨⟩⟩ := Option.bind_eq_some_iff.mp h
    rw [List.filterMap_cons_some hname, ih hrest]

namespace Datum

/-- The bindings that a call makes: the parameters and the function's own name. -/
def ownBindings (self : Datum) (name : Option String) (names : List String) (args : List Datum) :
    Bindings := (names.zip args).reverse ++ ((given? name).map (·, self)).toList

private theorem trimScope_ownBindings (self : Datum) (name : Option String) (names : List String)
    (args : List Datum) : trimScope (self.ownBindings name names args) =
      self.trim.ownBindings name names (args.map trim) := by
  rw [trimScope_eq, ownBindings, ownBindings, List.map_append, List.map_reverse,
    List.zip_map_right]
  cases given? name <;> rfl

private theorem lookup_ownBindings {self : Datum} {name : Option String} {names : List String}
    {args : List Datum} (hlen : names.length = args.length) {x : String}
    (hx : x ∈ names ++ (given? name).toList) :
    (self.ownBindings name names args).lookup x ≠ none := by
  rw [Ne, List.lookup_eq_none_iff]
  intro hnone
  suffices hmem : ∃ d, (x, d) ∈ self.ownBindings name names args by
    obtain ⟨d, hd⟩ := hmem
    simpa using hnone (x, d) hd
  rw [List.mem_append] at hx
  obtain hx | hx := hx
  · obtain ⟨i, hi, rfl⟩ := List.getElem_of_mem hx
    refine ⟨args[i], List.mem_append_left _ (List.mem_reverse.mpr ?_)⟩
    exact List.mem_iff_getElem.mpr ⟨i, by simpa [← hlen] using hi, by simp⟩
  · refine ⟨self, List.mem_append_right _ ?_⟩
    simpa using hx

/-- The names that the body of a function reads are its parameters, its own name, and what it reads
from around it. -/
theorem lookup_inner {params : List Node} {names reads : List String} {name : Option String}
    {self self' : Datum} {args args' : List Datum} {scope scope' : Bindings}
    (hnames : params.mapM Node.name? = some names) (hlen : args.length = params.length)
    (hself : self.trim = self'.trim) (hargs : args.map trim = args'.map trim)
    (hscope : ∀ x ∈ freeReads params name reads,
      (scope.lookup x).map trim = (scope'.lookup x).map trim) :
    ∀ x ∈ reads, ((self.inner name names args scope).lookup x).map trim =
      ((self'.inner name names args' scope').lookup x).map trim := by
  intro x hx
  have hinner (self : Datum) (args : List Datum) (scope : Bindings) :
      ((self.inner name names args scope).lookup x).map trim =
        ((self.trim.ownBindings name names (args.map trim)).lookup x).or
          ((scope.lookup x).map trim) := by
    have happ : self.inner name names args scope = self.ownBindings name names args ++ scope := rfl
    rw [happ, List.lookup_append, Option.map_or, ← lookup_trimScope, trimScope_ownBindings]
  rw [hinner, hinner, ← hself, ← hargs]
  cases hl : (self.trim.ownBindings name names (args.map trim)).lookup x with
  | some d => rfl
  | none =>
    rw [Option.none_or, Option.none_or]
    refine hscope x (mem_unbound.mpr ⟨hx, fun hmem => ?_⟩)
    rw [Node.filterMap_name? hnames] at hmem
    have hlen' : names.length = (args.map trim).length := by
      rw [List.length_map, hlen, Node.length_names hnames]
    exact lookup_ownBindings hlen' hmem hl

end Datum

/-! ### Trees -/

/-- Calls that cannot be told apart end alike. -/
structure CallsCoincide (call : Datum → List Datum → EvalM Datum) : Prop where
  same {d d' : Datum} {args args' : List Datum} : d.trim = d'.trim →
    args.map Datum.trim = args'.map Datum.trim →
    Coincide Datum.trim [] [] (call d args) (call d' args')

mutual

theorem lets_of_isIdle : (node : Node) → node.isIdle = true → node.lets = []
  | .block _ statements, h => lets_of_allIdle statements h
  | .foreign .., h | .program .., h | .letStmt .., h | .returnStmt .., h | .exprStmt .., h
  | .intLit .., h | .strLit .., h | .boolLit .., h | .ident .., h | .unary .., h | .binary .., h
  | .ifExpr .., h | .fnLit .., h | .call .., h | .arrayLit .., h | .hashLit .., h
  | .index .., h => by cases h

theorem lets_of_allIdle : (nodes : List Node) → allIdle nodes = true → letsOfAll nodes = []
  | [], _ => rfl
  | node :: rest, h => by
    obtain ⟨hnode, hrest⟩ := (Bool.and_eq_true _ _).mp h
    rw [letsOfAll, lets_of_isIdle node hnode, lets_of_allIdle rest hrest]
    rfl

end

private theorem Node.reads_letStmt (line : Line) (target value : Node) :
    (Node.letStmt line target value).reads = (value.boundTo (target.name?.getD "")).reads := by
  cases value <;> simp only [Node.reads, Node.boundTo]

private theorem evalStmt_letStmt_nameless (call : Datum → List Datum → EvalM Datum) (keep : Bool)
    {line : Line} {target : Node} (value : Node) (h : target.name? = none) :
    evalStmt call keep (.letStmt line target value) = throw .meaningless := by
  cases value <;> simp only [evalStmt, h] <;> rfl

section Trees

variable {call : Datum → List Datum → EvalM Datum}

theorem Coincide.unboundExpr {node : Node}
    (h : Steady Datum.trim (node.boundTo "").reads node.lets (evalExpr call (node.boundTo ""))) :
    Steady Datum.trim node.reads node.lets (evalExpr call node) := by
  rwa [node.boundTo_empty] at h

mutual

theorem evalStmt_steady (hcall : CallsCoincide call) (keep : Bool) : (node : Node) →
    Steady Datum.trim node.reads node.lets (evalStmt call keep node)
  | .exprStmt _ expr => by
    simp only [evalStmt]
    refine (Coincide.unboundExpr (evalExpr_steady hcall expr "")).andThen fun d d' hd => ?_
    split
    · exact .pure hd
    · exact .drop hd
  | .letStmt line target value => by
    rw [Node.reads_letStmt]
    cases ht : target.name? with
    | none =>
      rw [evalStmt_letStmt_nameless _ _ _ ht]
      exact .throw rfl
    | some name =>
      rw [evalStmt_letStmt _ _ _ _ _ ht, Node.lets, ht]
      refine ((evalExpr_steady hcall value name).bind fun d d' hd =>
        (Coincide.bindName name hd).andThen fun _ _ _ => .pure rfl).mono ?_ (List.Subset.refl _)
      exact List.append_subset.mpr ⟨List.Subset.refl _, List.nil_subset _⟩
  | .returnStmt _ value => by
    simp only [evalStmt]
    refine (evalResult_steady hcall value).andThen fun d d' hd => ?_
    exact @Coincide.throw _ _ _ _ _ (.returned d) (.returned d') (congrArg Interrupt.returned hd)
  | .block _ statements => evalStmts_steady hcall keep statements
  | .foreign .. | .program .. | .intLit .. | .strLit .. | .boolLit .. | .ident .. | .unary ..
  | .binary .. | .ifExpr .. | .fnLit .. | .call .. | .arrayLit .. | .hashLit .. | .index .. =>
    .throw rfl

theorem evalResult_steady (hcall : CallsCoincide call) : (value : Option Node) →
    Steady Datum.trim (readsOfOption value) (letsOfOption value) (evalResult call value)
  | none => .pure rfl
  | some value => Coincide.unboundExpr (evalExpr_steady hcall value "")

theorem evalStmts_steady (hcall : CallsCoincide call) (keep : Bool) : (nodes : List Node) →
    Steady Datum.trim (readsOfAll nodes) (letsOfAll nodes) (evalStmts call keep nodes)
  | [] => .pure rfl
  | node :: rest => by
    rw [evalStmts]
    split
    · rename_i h
      refine (evalStmt_steady hcall keep node).mono (List.subset_append_left ..) ?_
      rw [letsOfAll, lets_of_allIdle rest h, List.append_nil]
      exact List.Subset.refl _
    · exact (evalStmt_steady hcall false node).discard.bind fun _ _ _ =>
        evalStmts_steady hcall keep rest

theorem evalBranch_steady (hcall : CallsCoincide call) : (node : Option Node) →
    Steady Datum.trim (readsOfOption node) (letsOfOption node) (evalBranch call node)
  | none => .pure rfl
  | some (.block _ statements) | some (.program _ statements) =>
    evalStmts_steady hcall true statements
  | some (.foreign ..) | some (.letStmt ..) | some (.returnStmt ..) | some (.exprStmt ..)
  | some (.intLit ..) | some (.strLit ..) | some (.boolLit ..) | some (.ident ..)
  | some (.unary ..) | some (.binary ..) | some (.ifExpr ..) | some (.fnLit ..) | some (.call ..)
  | some (.arrayLit ..) | some (.hashLit ..) | some (.index ..) => .throw rfl

theorem evalExpr_steady (hcall : CallsCoincide call) : (node : Node) → (name : String) →
    Steady Datum.trim (node.boundTo name).reads node.lets (evalExpr call (node.boundTo name))
  | .intLit _ value, _ => by
    cases value with
    | int n => exact .pure rfl
    | _ => exact .throw rfl
  | .strLit .., _ | .boolLit .., _ => .pure rfl
  | .ident _ name, _ => .ident name
  | .unary _ op right, _ =>
    (Coincide.unboundExpr (evalExpr_steady hcall right "")).andThen fun _ _ hd => .unary op hd
  | .binary line left op right, _ => by
    change Steady Datum.trim (Node.binary line left op right).reads _
      (evalExpr call (.binary line left op right))
    have hl := Coincide.unboundExpr (evalExpr_steady hcall left "")
    have hr := Coincide.unboundExpr (evalExpr_steady hcall right "")
    rw [Node.reads, Node.lets, evalExpr]
    split
    · exact hr.bind fun _ _ hr => hl.andThen fun _ _ hl => .operate op hl hr
    · exact hl.bind fun _ _ hl => hr.andThen fun _ _ hr => .operate op hl hr
  | .ifExpr line condition first second, _ => by
    change Steady Datum.trim (Node.ifExpr line condition first second).reads _
      (evalExpr call (.ifExpr line condition first second))
    rw [Node.reads, Node.lets, evalExpr, List.append_assoc]
    refine (Coincide.unboundExpr (evalExpr_steady hcall condition "")).bind fun d d' hd => ?_
    rw [Datum.truthy_eq_of_trim_eq hd]
    split
    · refine ((evalBranch_steady hcall first).bind fun _ _ hd =>
        (Coincide.skip _).andThen fun _ _ _ => .pure hd).mono ?_ (List.Subset.refl _)
      exact List.append_subset.mpr ⟨List.subset_append_left .., List.nil_subset _⟩
    · refine ((Coincide.skip _).bind fun _ _ _ => evalBranch_steady hcall second).mono ?_
        (List.Subset.refl _)
      exact List.append_subset.mpr ⟨List.nil_subset _, List.subset_append_right ..⟩
  | .fnLit _ params body name, target => .makeClosure params body (bindingName target name)
  | .call _ callee args, _ =>
    (Coincide.unboundExpr (evalExpr_steady hcall callee "")).bind fun _ _ hf =>
      (evalExprs_steady hcall args).andThen fun _ _ hargs => hcall.same hf hargs
  | .arrayLit _ elements, _ =>
    (evalExprs_steady hcall elements).andThen fun ds ds' hds =>
      Coincide.identity.andThen fun i i' hi => .pure (by
        obtain rfl : i = i' := hi
        rw [Datum.trim, Datum.trim, Datum.trimElements_eq, Datum.trimElements_eq, hds])
  | .hashLit _ pairs, _ =>
    (evalPairs_steady hcall pairs).andThen fun ps ps' hps =>
      (Coincide.lift (f := Datum.trimEntries) (by
        rw [Except.map_mapError, Except.map_mapError, Datum.entriesOf_trim, Datum.entriesOf_trim,
          hps])).andThen fun es es' hes =>
      Coincide.identity.andThen fun i i' hi => .pure (by
        obtain rfl : i = i' := hi
        rw [Datum.trim, Datum.trim, hes])
  | .index _ left sub, _ =>
    (Coincide.unboundExpr (evalExpr_steady hcall left "")).bind fun l l' hl =>
      (Coincide.unboundExpr (evalExpr_steady hcall sub "")).andThen fun i i' hi => .lift (by
        rw [Except.map_mapError, Except.map_mapError, Datum.index_trim, Datum.index_trim, hl, hi])
  | .foreign .., _ | .program .., _ | .letStmt .., _ | .returnStmt .., _ | .exprStmt .., _
  | .block .., _ => .throw rfl

theorem evalExprs_steady (hcall : CallsCoincide call) : (nodes : List Node) →
    Steady (List.map Datum.trim) (readsOfAll nodes) (letsOfAll nodes) (evalExprs call nodes)
  | [] => .pure rfl
  | node :: rest =>
    (Coincide.unboundExpr (evalExpr_steady hcall node "")).bind fun _ _ hd =>
      (evalExprs_steady hcall rest).andThen fun _ _ hds => .pure (congrArg₂ List.cons hd hds)

theorem evalPairs_steady (hcall : CallsCoincide call) : (pairs : List (Node × Node)) →
    Steady (List.map (Prod.map Datum.trim Datum.trim)) (readsOfPairs pairs) (letsOfPairs pairs)
      (evalPairs call pairs)
  | [] => .pure rfl
  | (key, value) :: rest => by
    rw [readsOfPairs, letsOfPairs, evalPairs, List.append_assoc]
    refine (Coincide.unboundExpr (evalExpr_steady hcall key "")).bind fun _ _ hk =>
      (Coincide.unboundExpr (evalExpr_steady hcall value "")).bind fun _ _ hd =>
      (evalPairs_steady hcall rest).andThen fun _ _ hds => .pure ?_
    exact congrArg₂ List.cons (Prod.ext hk hd) hds

end

end Trees

theorem Datum.call_builtin (n : Nat) (b : Builtin) (args : List Datum) :
    Datum.call n (.builtin b) args = EvalM.callBuiltin b args := by
  cases n <;> rfl

theorem Datum.call_uncallable (n : Nat) {d : Datum} (args : List Datum)
    (h : ¬ (d.kind = .builtin ∨ d.kind = .closure)) :
    Datum.call n d args = EvalM.stop (.fault (.calling d.kind)) := by
  cases d with
  | builtin b => exact absurd (.inl rfl) h
  | closure => exact absurd (.inr rfl) h
  | _ => cases n <;> rfl

/-- Calls end alike if those which they make do. -/
theorem CallsCoincide.step {n : Nat} (hcalls : ∀ m, n = m + 1 → CallsCoincide (Datum.call m)) :
    CallsCoincide (Datum.call n) where
  same {d d' args args'} hd hargs := by
    have hlen : args.length = args'.length := by simpa using congrArg List.length hargs
    have hkind := Datum.kind_eq_of_trim_eq hd
    by_cases hcallable : d.kind = .builtin ∨ d.kind = .closure
    · cases d with
      | builtin b =>
        cases d' with
        | builtin b' =>
          cases hd
          rw [Datum.call_builtin, Datum.call_builtin]
          exact .callBuiltin b hargs
        | _ => cases hd
      | closure id params body name scope =>
        cases d' with
        | closure id' params' body' name' scope' =>
          obtain ⟨rfl, rfl, rfl, rfl, hscope⟩ := Datum.trim_closure_eq_iff.mp hd
          rw [Datum.call_closure, Datum.call_closure, hlen]
          split
          · exact .throw rfl
          · rename_i harity
            cases n with
            | zero => exact .throw rfl
            | succ m =>
              cases hnames : params.mapM Node.name? with
              | none => exact .throw rfl
              | some names =>
                have hl : args.length = params.length := by omega
                exact .within (Datum.lookup_inner hnames hl hd hargs hscope)
                  (evalBranch_steady (hcalls m rfl) (some body))
        | _ => cases hd
      | _ => simp [Datum.kind] at hcallable
    · rw [Datum.call_uncallable n args hcallable,
        Datum.call_uncallable n args' (by rwa [← hkind]), ← hkind]
      exact .throw rfl

/-- Calls of functions that cannot be told apart end alike, to any depth. -/
theorem Datum.call_coincides (depth : Nat) : CallsCoincide (Datum.call depth) := by
  induction depth with
  | zero => exact .step fun m hm => absurd hm (by omega)
  | succ depth ih =>
    refine .step fun m hm => ?_
    obtain rfl : depth = m := Nat.succ.inj hm
    exact ih

end ClosureVM
