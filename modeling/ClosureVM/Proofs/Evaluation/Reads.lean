import ClosureVM.Proofs.Evaluation.Denotation

/-! What an evaluation can depend on: the names that a tree reads from around it, and of a closure
the bindings of the names that its function reads. -/
namespace ClosureVM

/-- The names that are not bound by what goes before. -/
def unbound (lets reads : List String) : List String := reads.filter (· ∉ lets)

theorem mem_unbound {lets reads : List String} {x : String} :
    x ∈ unbound lets reads ↔ x ∈ reads ∧ x ∉ lets := by
  simp [unbound]

/-- What a function reads from around it, of what its body reads. -/
def freeReads (params : List Node) (name : Option String) (reads : List String) : List String :=
  unbound (params.filterMap Node.name? ++ (given? name).toList) reads

mutual

/-- The names that a tree reads without having bound them before, in the order of evaluation. -/
def Node.reads : Node → List String
  | .program _ statements | .block _ statements => readsOfAll statements
  | .letStmt _ target (.fnLit _ params body name) =>
    freeReads params (bindingName (target.name?.getD "") name) body.reads
  | .letStmt _ _ value => value.reads
  | .returnStmt _ value => readsOfOption value
  | .exprStmt _ expr => expr.reads
  | .ident _ name => [name]
  | .unary _ _ right => right.reads
  | .binary _ left op right =>
    if op = "<" then right.reads ++ unbound right.lets left.reads
    else left.reads ++ unbound left.lets right.reads
  | .ifExpr _ condition consequence alternative =>
    condition.reads ++ unbound condition.lets (readsOfOption consequence ++
      unbound (letsOfOption consequence) (readsOfOption alternative))
  | .fnLit _ params body name => freeReads params name body.reads
  | .call _ callee args => callee.reads ++ unbound callee.lets (readsOfAll args)
  | .arrayLit _ elements => readsOfAll elements
  | .hashLit _ pairs => readsOfPairs pairs
  | .index _ left sub => left.reads ++ unbound left.lets sub.reads
  | _ => []

def readsOfOption : Option Node → List String
  | none => []
  | some node => node.reads

def readsOfAll : List Node → List String
  | [] => []
  | node :: rest => node.reads ++ unbound node.lets (readsOfAll rest)

def readsOfPairs : List (Node × Node) → List String
  | [] => []
  | (key, value) :: rest =>
    key.reads ++ unbound key.lets (value.reads ++ unbound value.lets (readsOfPairs rest))

end

namespace Bindings

/-- What these names stand for. -/
def restrict (names : List String) (scope : Bindings) : Bindings :=
  names.filterMap fun x => (scope.lookup x).map (x, ·)

theorem lookup_restrict (names : List String) (scope : Bindings) (x : String) :
    (scope.restrict names).lookup x = if x ∈ names then scope.lookup x else none := by
  induction names with
  | nil => rfl
  | cons y names ih =>
    rw [restrict] at ih ⊢
    rw [List.filterMap_cons]
    by_cases hxy : x = y
    · subst hxy
      cases hx : scope.lookup x with
      | none =>
        rw [hx] at ih
        simp [ih]
      | some d => simp
    · have hbeq : (x == y) = false := by simpa using hxy
      cases hy : scope.lookup y with
      | none => simp [ih, hxy]
      | some d => simp [List.lookup_cons, hbeq, ih, hxy]

theorem restrict_eq_restrict {names : List String} {s s' : Bindings} :
    s.restrict names = s'.restrict names ↔ ∀ x ∈ names, s.lookup x = s'.lookup x := by
  constructor
  · intro h x hx
    have hl := congrArg (List.lookup x) h
    rwa [lookup_restrict, lookup_restrict, if_pos hx, if_pos hx] at hl
  · intro h
    refine List.filterMap_congr fun x hx => ?_
    rw [h x hx]

end Bindings

namespace Datum

mutual

/-- A datum with no more than can be told of it: its closures keep the bindings of the names that
they read. -/
def trim : Datum → Datum
  | null => null
  | bool b => .bool b
  | int n => .int n
  | str s => .str s
  | array id elements => .array id (trimElements elements)
  | hash id entries => .hash id (trimEntries entries)
  | closure id params body name scope =>
    .closure id params body name
      (Bindings.restrict (freeReads params name body.reads) (trimScope scope))
  | builtin b => .builtin b

def trimElements : List Datum → List Datum
  | [] => []
  | d :: rest => d.trim :: trimElements rest

def trimEntries : List (Key × Datum) → List (Key × Datum)
  | [] => []
  | (k, d) :: rest => (k, d.trim) :: trimEntries rest

def trimScope : List (String × Datum) → List (String × Datum)
  | [] => []
  | (x, d) :: rest => (x, d.trim) :: trimScope rest

end

theorem trimElements_eq (ds : List Datum) : trimElements ds = ds.map trim := by
  induction ds with
  | nil => rfl
  | cons d ds ih => rw [trimElements, ih, List.map_cons]

private theorem trimEntries_eq (entries : List (Key × Datum)) :
    trimEntries entries = entries.map fun e => (e.1, e.2.trim) := by
  induction entries with
  | nil => rfl
  | cons e entries ih => rw [trimEntries, ih, List.map_cons]

theorem trimScope_eq (scope : Bindings) : trimScope scope = scope.map (Prod.map id trim) := by
  induction scope with
  | nil => rfl
  | cons e scope ih => rw [trimScope, ih, List.map_cons, Prod.map_apply, id_eq]

theorem lookup_trimScope (scope : Bindings) (x : String) :
    List.lookup x (trimScope scope) = (scope.lookup x).map trim := by
  induction scope with
  | nil => rfl
  | cons e scope ih =>
    obtain ⟨y, d⟩ := e
    rw [trimScope, List.lookup_cons, List.lookup_cons, ih]
    cases x == y <;> rfl

/-- Closures of one function cannot be told apart if the names it reads stand for the same. -/
theorem trim_closure_eq_iff {id id' : Nat} {params params' : List Node} {body body' : Node}
    {name name' : Option String} {s s' : Bindings} :
    (closure id params body name s).trim = (closure id' params' body' name' s').trim ↔
      id = id' ∧ params = params' ∧ body = body' ∧ name = name' ∧
        ∀ x ∈ freeReads params name body.reads,
          (s.lookup x).map trim = (s'.lookup x).map trim := by
  simp only [trim, closure.injEq]
  constructor
  · rintro ⟨rfl, rfl, rfl, rfl, hs⟩
    refine ⟨rfl, rfl, rfl, rfl, fun x hx => ?_⟩
    rw [← lookup_trimScope, ← lookup_trimScope]
    exact Bindings.restrict_eq_restrict.mp hs x hx
  · rintro ⟨rfl, rfl, rfl, rfl, hs⟩
    refine ⟨rfl, rfl, rfl, rfl, Bindings.restrict_eq_restrict.mpr fun x hx => ?_⟩
    rw [lookup_trimScope, lookup_trimScope]
    exact hs x hx

/-! ### Operations see no more than that -/

@[simp] theorem kind_trim (d : Datum) : d.trim.kind = d.kind := by
  cases d <;> rfl

@[simp] theorem truthy_trim (d : Datum) : d.trim.truthy = d.truthy := by
  cases d <;> rfl

@[simp] theorem key?_trim (d : Datum) : d.trim.key? = d.key? := by
  cases d <;> rfl

theorem same_trim (a b : Datum) : a.trim.same b.trim = a.same b := by
  cases a <;> cases b <;> rfl

mutual

theorem inspect_trim : (d : Datum) → d.trim.inspect = d.inspect
  | .null | .bool _ | .int _ | .str _ | .builtin _ | .closure .. => rfl
  | .array _ ds => congrArg (listText "[" "]") (inspectElements_trim ds)
  | .hash _ entries => congrArg (listText "\x7b" "\x7d") (inspectEntries_trim entries)

theorem inspectElements_trim : (ds : List Datum) →
    inspectElements (trimElements ds) = inspectElements ds
  | [] => rfl
  | d :: ds => congrArg₂ List.cons (inspect_trim d) (inspectElements_trim ds)

theorem inspectEntries_trim : (entries : List (Key × Datum)) →
    inspectEntries (trimEntries entries) = inspectEntries entries
  | [] => rfl
  | (k, d) :: entries =>
    congrArg₂ List.cons (congrArg (k.inspect ++ ": " ++ ·) (inspect_trim d))
      (inspectEntries_trim entries)

end

theorem kind_eq_of_trim_eq {d d' : Datum} (h : d.trim = d'.trim) : d.kind = d'.kind := by
  rw [← d.kind_trim, h, d'.kind_trim]

theorem truthy_eq_of_trim_eq {d d' : Datum} (h : d.trim = d'.trim) : d.truthy = d'.truthy := by
  rw [← d.truthy_trim, h, d'.truthy_trim]

theorem ofExact_trim (n : Int) : (ofExact n).map trim = ofExact n := by
  unfold ofExact
  split
  · rfl
  · cases Text.isWritable n <;> rfl

private theorem add_trim (a b : Datum) : (a.add b).map trim = a.trim.add b.trim := by
  cases a with
  | int m =>
    cases b with
    | int n => exact ofExact_trim (m + n)
    | _ => rfl
  | _ => cases b <;> rfl

theorem arithmetic_trim {op : Opcode} {f : Int → Int → Except Stop Datum}
    (hf : ∀ m n, (f m n).map trim = f m n) (a b : Datum) :
    (a.arithmetic op f b).map trim = a.trim.arithmetic op f b.trim := by
  cases a with
  | int m =>
    cases b with
    | int n => exact hf m n
    | _ => rfl
  | _ => cases b <;> rfl

private theorem divide_trim (m n : Int) : (divide m n).map trim = divide m n := by
  unfold divide
  split
  · rfl
  · exact ofExact_trim (m.tdiv n)

theorem unaryOperator?_trim {op : String} {f : Datum → Except Stop Datum}
    (h : unaryOperator? op = some f) (d : Datum) : (f d).map trim = f d.trim := by
  unfold unaryOperator? at h
  split at h <;> cases h
  · exact congrArg (fun b => Except.ok (Datum.bool !b)) d.truthy_trim.symm
  · cases d with
    | int n => exact ofExact_trim (-n)
    | _ => rfl

theorem binaryOperator?_trim {op : String} {f : Datum → Datum → Except Stop Datum}
    (h : binaryOperator? op = some f) (a b : Datum) : (f a b).map trim = f a.trim b.trim := by
  unfold binaryOperator? at h
  split at h <;> cases h
  · exact add_trim a b
  · exact arithmetic_trim (fun m n => ofExact_trim (m - n)) a b
  · exact arithmetic_trim (fun m n => ofExact_trim (m * n)) a b
  · exact arithmetic_trim divide_trim a b
  · exact congrArg (fun b => Except.ok (Datum.bool b)) (same_trim a b).symm
  · exact congrArg (fun b => Except.ok (Datum.bool !b)) (same_trim a b).symm
  · cases a <;> cases b <;> rfl
  · cases a <;> cases b <;> rfl

theorem trim_getD (o : Option Datum) : (o.getD .null).trim = (o.map trim).getD .null := by
  cases o <;> rfl

private theorem lookup?_trim (entries : List (Key × Datum)) (k : Key) :
    lookup? (trimEntries entries) k = (lookup? entries k).map trim := by
  rw [lookup?, lookup?, trimEntries_eq, List.find?_map, Option.map_map, Option.map_map]
  rfl

theorem index_trim (a i : Datum) : (a.index i).map trim = a.trim.index i.trim := by
  cases a with
  | array id ds =>
    cases i with
    | int n =>
      simp only [index, trim, trimElements_eq, List.getElem?_map, Except.map]
      split
      · rw [trim_getD]
      · rfl
    | _ => rfl
  | hash id entries =>
    simp only [index, trim, key?_trim, Except.map, trim_getD]
    cases i.key? with
    | none => rfl
    | some k => rw [Option.bind_some, Option.bind_some, lookup?_trim]
  | _ => rfl

private theorem insert_trim (entries : List (Key × Datum)) (k : Key) (d : Datum) :
    trimEntries (insert entries k d) = insert (trimEntries entries) k d.trim := by
  induction entries with
  | nil => rfl
  | cons e entries ih =>
    obtain ⟨l, b⟩ := e
    simp only [insert, trimEntries]
    split
    · rfl
    · rw [trimEntries, ih]

theorem entriesOf_trim (entries : List (Key × Datum)) (pairs : List (Datum × Datum)) :
    (entriesOf entries pairs).map trimEntries =
      entriesOf (trimEntries entries) (pairs.map (Prod.map trim trim)) := by
  induction pairs generalizing entries with
  | nil => rfl
  | cons pair pairs ih =>
    obtain ⟨k, d⟩ := pair
    simp only [entriesOf, List.map_cons, Prod.map_apply, key?_trim, kind_trim]
    cases k.key? with
    | none => rfl
    | some key =>
      dsimp only
      rw [ih, insert_trim]

end Datum

namespace Builtin

theorem onArray_trim {b : Builtin} {f : List Datum → Datum}
    (hf : ∀ ds, (f ds).trim = f (ds.map Datum.trim)) (args : List Datum) :
    (b.onArray f args).map (Prod.map Datum.trim id) = b.onArray f (args.map Datum.trim) := by
  match args with
  | [] => rfl
  | [d] =>
    cases d with
    | array id ds =>
      change Except.ok ((f ds).trim, []) = Except.ok (f (Datum.trimElements ds), [])
      rw [hf, Datum.trimElements_eq]
    | _ => rfl
  | d :: e :: args =>
    have hl : (args.map Datum.trim).length = args.length := List.length_map _
    cases d <;>
      exact congrArg (fun n : Nat => Except.error (Fault.arity 1 (n + 1 + 1 : Nat))) hl.symm

theorem applyTo_trim (b : Builtin) (fresh : Nat) (args : List Datum) :
    (b.applyTo fresh args).map (Prod.map Datum.trim id) =
      b.applyTo fresh (args.map Datum.trim) := by
  cases b with
  | puts =>
    change Except.ok (Datum.null, args.map Datum.inspect) =
      Except.ok (Datum.null, (args.map Datum.trim).map Datum.inspect)
    rw [List.map_map]
    exact congrArg (fun lines => Except.ok (Datum.null, lines))
      (List.map_congr_left fun d _ => d.inspect_trim.symm)
  | first =>
    refine onArray_trim (fun ds => ?_) args
    rw [Datum.trim_getD, List.head?_map]
  | last =>
    refine onArray_trim (fun ds => ?_) args
    rw [Datum.trim_getD, List.getLast?_map]
  | rest =>
    refine onArray_trim (fun ds => ?_) args
    cases ds with
    | nil => rfl
    | cons d ds => exact congrArg (Datum.array fresh) (Datum.trimElements_eq ds)
  | len =>
    match args with
    | [] => rfl
    | [d] =>
      cases d with
      | array id ds =>
        have hl : (Datum.trimElements ds).length = ds.length := by
          rw [Datum.trimElements_eq, List.length_map]
        exact congrArg (fun n : Nat => Except.ok (Datum.int n, [])) hl.symm
      | _ => rfl
    | d :: e :: args =>
      have hl : (args.map Datum.trim).length = args.length := List.length_map _
      cases d <;>
        exact congrArg (fun n : Nat => Except.error (Fault.arity 1 (n + 1 + 1 : Nat))) hl.symm
  | push =>
    match args with
    | [] => rfl
    | [d] => cases d <;> rfl
    | [d, e] =>
      cases d with
      | array id ds =>
        change Except.ok (Datum.array fresh (Datum.trimElements (ds ++ [e])), []) =
          Except.ok (Datum.array fresh (Datum.trimElements ds ++ [e.trim]), [])
        rw [Datum.trimElements_eq, Datum.trimElements_eq, List.map_append, List.map_singleton]
      | _ => rfl
    | d :: e :: e' :: args =>
      have hl : (args.map Datum.trim).length = args.length := List.length_map _
      cases d <;>
        exact congrArg (fun n : Nat => Except.error (Fault.arity 2 (n + 1 + 1 + 1 : Nat))) hl.symm

end Builtin

end ClosureVM
