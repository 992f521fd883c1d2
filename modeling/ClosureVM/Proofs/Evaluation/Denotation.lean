import ClosureVM.Proofs.Code.Checking
import ClosureVM.Proofs.Evaluation.Scoping
import ClosureVM.Proofs.Machine.Activation

/-! Which value of the machine a datum of the evaluator stands for, and that the operations on both
agree. -/
namespace ClosureVM

/-- The value of a symbol that every scope can reach. -/
def Symbol.sharedValue? (globals : List Value) (s : Symbol) : Option Value :=
  match s.storage with
  | .global => globals[s.index.toNat]?
  | .builtin => Builtin.all[s.index.toNat]?.map .builtin
  | _ => none

/-- A function literal that was compiled on the draft `d`, with the draft `d'` at its end. -/
structure Compiled (pool : Array Value) (params : List Node) (body : Node) (name : Option String)
    (d d' : Draft) (proto : Prototype) : Prop where
  orderly : d.env.Orderly
  pool : Extends d'.constants pool
  code : ∃ names statements ps, params.mapM Node.name? = some names ∧
    body.statements? = some statements ∧ Translates (.stmts statements) (d.enter name names) ps d' ∧
    Piece.Fits 0 (Piece.asBody ps) ∧ proto = .ofBody d' ps params name

/-- The datum stands for the value, when `globals` are the values bound by the program so far. -/
inductive Denotes (pool : Array Value) (globals : List Value) : Datum → Value → Prop
  | null : Denotes pool globals .null .null
  | bool (b : Bool) : Denotes pool globals (.bool b) (.bool b)
  | int (n : Int) : Denotes pool globals (.int n) (.int n)
  | str (s : String) : Denotes pool globals (.str s) (.str s)
  | array {id : Nat} {ds : List Datum} {vs : List Value} :
    ds.length = vs.length →
      (∀ (i : Nat) d v, ds[i]? = some d → vs[i]? = some v → Denotes pool globals d v) →
      Denotes pool globals (.array id ds) (.array id vs)
  | hash {id : Nat} {ds : List (Key × Datum)} {vs : Entries} :
    ds.map Prod.fst = vs.map Prod.fst →
      (∀ (i : Nat) d v, ds[i]? = some d → vs[i]? = some v → Denotes pool globals d.2 v.2) →
      Denotes pool globals (.hash id ds) (.hash id vs)
  | closure {id : Nat} {params : List Node} {body : Node} {name : Option String}
    {scope : Bindings} {d d' : Draft} {proto : Prototype} {free : List Value} :
    Compiled pool params body name d d' proto → free.length = d'.env.current.free.length →
      (∀ s ∈ d'.env.current.free, (scope.lookup s.name).isSome) →
      (∀ (i : Nat) s e v, d'.env.current.free[i]? = some s → scope.lookup s.name = some e →
        free[i]? = some v → Denotes pool globals e v) →
      (∀ x s, (∀ t ∈ d.env.nested, t.find? x = none) → d.env.global.find? x = some s →
        (scope.lookup x).isSome ∧ (s.sharedValue? globals).isSome) →
      (∀ x s e v, (∀ t ∈ d.env.nested, t.find? x = none) → d.env.global.find? x = some s →
        scope.lookup x = some e → s.sharedValue? globals = some v → Denotes pool globals e v) →
      Denotes pool globals (.closure id params body name scope) (.closure id proto free)
  | builtin (b : Builtin) : Denotes pool globals (.builtin b) (.builtin b)

theorem Symbol.sharedValue?_mono {globals globals' : List Value} {s : Symbol} {v : Value}
    (hs : s.sharedValue? globals = some v) (hg : globals <+: globals') :
    s.sharedValue? globals' = some v := by
  unfold sharedValue? at hs ⊢
  split at hs
  · obtain ⟨rest, rfl⟩ := hg
    rw [List.getElem?_append_left (List.getElem?_eq_some_iff.mp hs).1, hs]
  · exact hs
  · cases hs

namespace Denotes

variable {pool : Array Value} {globals globals' : List Value} {d e : Datum} {v w : Value}

/-- Further globals make no difference. -/
theorem mono (h : Denotes pool globals d v) (hg : globals <+: globals') :
    Denotes pool globals' d v := by
  induction h with
  | null => exact .null
  | bool b => exact .bool b
  | int n => exact .int n
  | str s => exact .str s
  | array hl _ ih => exact .array hl ih
  | hash hk _ ih => exact .hash hk ih
  | closure hc hl hf _ hs _ ihf ihs =>
    refine .closure hc hl hf ihf (fun x s hn hx => ?_) fun x s e v hn hx he hv => ?_
    · obtain ⟨hscope, hshared⟩ := hs x s hn hx
      obtain ⟨v, hv⟩ := Option.isSome_iff_exists.mp hshared
      exact ⟨hscope, by rw [Symbol.sharedValue?_mono hv hg]; rfl⟩
    · obtain ⟨-, hshared⟩ := hs x s hn hx
      obtain ⟨w, hw⟩ := Option.isSome_iff_exists.mp hshared
      have hw' := Symbol.sharedValue?_mono hw hg
      rw [hv] at hw'
      cases hw'
      exact ihs x s e v hn hx he hw
  | builtin b => exact .builtin b

private theorem kind_eq (h : Denotes pool globals d v) : d.kind = v.kind := by
  cases h <;> rfl

theorem truthy_eq (h : Denotes pool globals d v) : d.truthy = v.truthy := by
  cases h with
  | bool b => cases b <;> rfl
  | _ => rfl

theorem key?_eq (h : Denotes pool globals d v) : d.key? = v.key? := by
  cases h <;> rfl

theorem same_eq (h : Denotes pool globals d v) (h' : Denotes pool globals e w) :
    d.same e = v.equals w := by
  cases h <;> cases h' <;> rfl

end Denotes

theorem Datum.inspectElements_eq (ds : List Datum) : inspectElements ds = ds.map inspect := by
  induction ds with
  | nil => rfl
  | cons d ds ih => rw [inspectElements, ih, List.map_cons]

theorem Datum.inspectEntries_eq (ds : List (Key × Datum)) :
    inspectEntries ds = ds.map fun e => e.1.inspect ++ ": " ++ e.2.inspect := by
  induction ds with
  | nil => rfl
  | cons d ds ih => rw [inspectEntries, ih, List.map_cons]

theorem inspectElements_eq (vs : List Value) : inspectElements vs = vs.map Value.inspect := by
  induction vs with
  | nil => rfl
  | cons v vs ih => rw [inspectElements, ih, List.map_cons]

theorem inspectEntries_eq (vs : Entries) :
    inspectEntries vs = vs.map fun e => e.1.inspect ++ ": " ++ e.2.inspect := by
  induction vs with
  | nil => rfl
  | cons v vs ih => rw [inspectEntries, ih, List.map_cons]

/-- Two lists that agree place by place have the same image. -/
theorem map_eq_map_of_getElem? {α β γ : Type} {f : α → γ} {g : β → γ} {as : List α} {bs : List β}
    (hl : as.length = bs.length)
    (h : ∀ (i : Nat) a b, as[i]? = some a → bs[i]? = some b → f a = g b) :
    as.map f = bs.map g := by
  apply List.ext_getElem (by simpa using hl)
  intro i hi hi'
  rw [List.length_map] at hi hi'
  rw [List.getElem_map, List.getElem_map]
  exact h i _ _ (List.getElem?_eq_getElem hi) (List.getElem?_eq_getElem hi')

namespace Denotes

variable {pool : Array Value} {globals globals' : List Value} {d e : Datum} {v w : Value}

private theorem inspect_eq (h : Denotes pool globals d v) : d.inspect = v.inspect := by
  induction h with
  | array hl _ ih =>
    rw [Datum.inspect, Value.inspect, Datum.inspectElements_eq, inspectElements_eq]
    exact congrArg _ (map_eq_map_of_getElem? hl ih)
  | @hash _ ds vs hk _ ih =>
    have hl : ds.length = vs.length := by simpa using congrArg List.length hk
    rw [Datum.inspect, Value.inspect, Datum.inspectEntries_eq, inspectEntries_eq]
    refine congrArg _ (map_eq_map_of_getElem? hl fun i a b ha hb => ?_)
    have hkey : a.1 = b.1 := by
      have := congrArg (·[i]?) hk
      simpa [ha, hb] using this
    rw [hkey, ih i a b ha hb]
  | _ => rfl

end Denotes

/-- Both operations fail alike, or their results agree. -/
def SameResult {ε α β : Type} (R : α → β → Prop) : Except ε α → Except ε β → Prop
  | .ok a, .ok b => R a b
  | .error e, .error e' => e = e'
  | _, _ => False

theorem SameResult.cases {ε α β : Type} {R : α → β → Prop} {r : Except ε α} {r' : Except ε β}
    (h : SameResult R r r') :
    (∃ e, r = .error e ∧ r' = .error e) ∨ ∃ a b, r = .ok a ∧ r' = .ok b ∧ R a b := by
  match r, r' with
  | .ok a, .ok b => exact .inr ⟨a, b, rfl, rfl, h⟩
  | .error e, .error e' => exact .inl ⟨e, rfl, congrArg _ (Eq.symm h)⟩

theorem SameResult.mapError {ε ε' α β : Type} {R : α → β → Prop} {r : Except ε α}
    {r' : Except ε β} (h : SameResult R r r') (f : ε → ε') :
    SameResult R (r.mapError f) (r'.mapError f) := by
  obtain ⟨e, rfl, rfl⟩ | ⟨a, b, rfl, rfl, hab⟩ := h.cases
  · rfl
  · exact hab

/-- What the instruction for an operator does with the value on the stack. -/
def Value.unary (op : Opcode) (a : Value) : Except Stop Value :=
  match op with
  | .bang => .ok (.bool !a.truthy)
  | _ => a.negate

/-- Arithmetic and comparisons of values. -/
def Value.operate (op : Opcode) (a b : Value) : Except Stop Value :=
  match op with
  | .equal | .notEqual | .greaterThan => ((a.compare op b).map .bool).mapError .fault
  | op => a.arithmetic op b

section Operations

variable {pool : Array Value} {globals : List Value} {d e : Datum} {v w : Value}

/-- The bounds of exact results are those of a word. -/
theorem ofExact_same (n : Int) :
    SameResult (Denotes pool globals) (Datum.ofExact n) ((checkWord n).map .int) := by
  have hword : (-9223372036854775808 ≤ n ∧ n ≤ 9223372036854775807) = IsWord n := rfl
  simp only [Datum.ofExact, checkWord, hword]
  split
  · exact .int n
  · cases Text.isWritable n <;> rfl

private theorem negate_same (h : Denotes pool globals d v) :
    SameResult (Denotes pool globals) d.negate v.negate := by
  cases h with
  | int n => exact ofExact_same (-n)
  | _ => rfl

private theorem add_same (h : Denotes pool globals d v) (h' : Denotes pool globals e w) :
    SameResult (Denotes pool globals) (d.add e) (v.arithmetic .add w) := by
  cases h with
  | int m =>
    cases h' with
    | int n => exact ofExact_same (m + n)
    | _ => rfl
  | str s =>
    cases h' with
    | str t => exact .str (s ++ t)
    | _ => rfl
  | _ => cases h' <;> rfl

theorem arithmetic_same {op : Opcode} {f : Int → Int → Except Stop Datum} (hop : op ≠ .add)
    (hf : ∀ m n,
      SameResult (Denotes pool globals) (f m n) ((integerOperation op m n).map .int))
    (h : Denotes pool globals d v) (h' : Denotes pool globals e w) :
    SameResult (Denotes pool globals) (d.arithmetic op f e) (v.arithmetic op w) := by
  cases h with
  | int m =>
    cases h' with
    | int n => exact hf m n
    | _ => rfl
  | str s =>
    cases h' with
    | str t =>
      rw [Datum.arithmetic, Value.arithmetic, if_neg hop]
      rfl
    | _ => rfl
  | _ => cases h' <;> rfl

private theorem divide_same (m n : Int) :
    SameResult (Denotes pool globals) (Datum.divide m n)
      ((integerOperation .div m n).map .int) := by
  simp only [Datum.divide, integerOperation, quotient_eq_tdiv]
  split
  · rfl
  · exact ofExact_same (m.tdiv n)

private theorem greater_same (h : Denotes pool globals d v) (h' : Denotes pool globals e w) :
    SameResult (Denotes pool globals) (d.greater e) (Value.operate .greaterThan v w) := by
  cases h with
  | int m =>
    cases h' with
    | int n => exact .bool _
    | _ => rfl
  | _ => cases h' <;> rfl

/-- `<` is `>` with its operands exchanged. -/
theorem less_same (h : Denotes pool globals d v) (h' : Denotes pool globals e w) :
    SameResult (Denotes pool globals) (d.less e) (Value.operate .greaterThan w v) := by
  cases h with
  | int m =>
    cases h' with
    | int n => exact .bool _
    | _ => rfl
  | _ => cases h' <;> rfl

/-- The instruction chosen for an operator does what the operator means. -/
theorem unaryOperator?_same {op : String} {code : Opcode} (hop : unaryOpcode? op = some code) :
    ∃ f, Datum.unaryOperator? op = some f ∧
      ∀ {pool globals d v}, Denotes pool globals d v →
        SameResult (Denotes pool globals) (f d) (Value.unary code v) := by
  unfold unaryOpcode? at hop
  split at hop
  · cases hop
    exact ⟨_, rfl, fun h => h.truthy_eq ▸ Denotes.bool _⟩
  · cases hop
    exact ⟨_, rfl, negate_same⟩
  · cases hop

theorem binaryOperator?_same {op : String} {code : Opcode} (hop : binaryOpcode? op = some code) :
    ∃ f, Datum.binaryOperator? op = some f ∧
      ∀ {pool globals d e v w}, Denotes pool globals d v → Denotes pool globals e w →
        SameResult (Denotes pool globals) (f d e) (Value.operate code v w) := by
  unfold binaryOpcode? at hop
  split at hop <;> cases hop
  · exact ⟨_, rfl, add_same⟩
  · exact ⟨_, rfl, arithmetic_same (by decide) fun m n => ofExact_same (m - n)⟩
  · exact ⟨_, rfl, arithmetic_same (by decide) fun m n => ofExact_same (m * n)⟩
  · exact ⟨_, rfl, arithmetic_same (by decide) divide_same⟩
  · refine ⟨_, rfl, fun h h' => ?_⟩
    rw [Value.operate, Value.compare_equal, h.same_eq h']
    exact .bool _
  · refine ⟨_, rfl, fun h h' => ?_⟩
    rw [Value.operate, Value.compare_notEqual, h.same_eq h']
    exact .bool _
  · exact ⟨_, rfl, greater_same⟩

/-- An array of data stands for an array of the values they stand for. -/
theorem denotes_array {id : Nat} {ds : List Datum} {v : Value} :
    Denotes pool globals (.array id ds) v ↔
      ∃ vs, v = .array id vs ∧ List.Forall₂ (Denotes pool globals) ds vs := by
  constructor
  · intro h
    cases h with
    | array hl h =>
      refine ⟨_, rfl, List.forall₂_iff_get.mpr ⟨hl, fun i hi hi' => ?_⟩⟩
      exact h i _ _ (List.getElem?_eq_getElem hi) (List.getElem?_eq_getElem hi')
  · rintro ⟨vs, rfl, h⟩
    obtain ⟨hl, h⟩ := List.forall₂_iff_get.mp h
    refine .array hl fun i d v hd hv => ?_
    obtain ⟨hi, rfl⟩ := List.getElem?_eq_some_iff.mp hd
    obtain ⟨hi', rfl⟩ := List.getElem?_eq_some_iff.mp hv
    exact h i hi hi'

theorem getElem?_same {ds : List Datum} {vs : List Value}
    (h : List.Forall₂ (Denotes pool globals) ds vs) (i : Nat) :
    Denotes pool globals (ds[i]?.getD .null) (vs[i]?.getD .null) := by
  induction h generalizing i with
  | nil => exact .null
  | cons hd _ ih =>
    cases i with
    | zero => exact hd
    | succ i => exact ih i

/-- Entries with the same keys, in the same order, whose values agree. -/
abbrev SameEntries (pool : Array Value) (globals : List Value) (ds : List (Key × Datum))
    (vs : Entries) : Prop :=
  List.Forall₂ (fun e e' => e.1 = e'.1 ∧ Denotes pool globals e.2 e'.2) ds vs

theorem denotes_hash {id : Nat} {ds : List (Key × Datum)} {v : Value} :
    Denotes pool globals (.hash id ds) v ↔
      ∃ vs, v = .hash id vs ∧ SameEntries pool globals ds vs := by
  constructor
  · intro h
    cases h with
    | @hash _ _ vs hk h =>
      have hl : ds.length = vs.length := by simpa using congrArg List.length hk
      refine ⟨_, rfl, List.forall₂_iff_get.mpr ⟨hl, fun i hi hi' => ⟨?_, ?_⟩⟩⟩
      · have := congrArg (·[i]?) hk
        simpa [hi, hi'] using this
      · exact h i _ _ (List.getElem?_eq_getElem hi) (List.getElem?_eq_getElem hi')
  · rintro ⟨vs, rfl, h⟩
    obtain ⟨hl, hget⟩ := List.forall₂_iff_get.mp h
    refine .hash ?_ fun i d v hd hv => ?_
    · apply map_eq_map_of_getElem? hl
      intro i a b ha hb
      obtain ⟨hi, rfl⟩ := List.getElem?_eq_some_iff.mp ha
      obtain ⟨hi', rfl⟩ := List.getElem?_eq_some_iff.mp hb
      exact (hget i hi hi').1
    · obtain ⟨hi, rfl⟩ := List.getElem?_eq_some_iff.mp hd
      obtain ⟨hi', rfl⟩ := List.getElem?_eq_some_iff.mp hv
      exact (hget i hi hi').2

private theorem lookup?_same {ds : List (Key × Datum)} {vs : Entries}
    (h : SameEntries pool globals ds vs) (k : Key) :
    Denotes pool globals ((Datum.lookup? ds k).getD .null) ((vs.get? k).getD .null) := by
  unfold Datum.lookup? Entries.get?
  induction h with
  | nil => exact .null
  | @cons e e' _ _ he _ ih =>
    by_cases hk : e.1 = k
    · rw [List.find?_cons_of_pos (by simpa using hk),
        List.find?_cons_of_pos (by simpa [← he.1] using hk)]
      exact he.2
    · rw [List.find?_cons_of_neg (by simpa using hk),
        List.find?_cons_of_neg (by simpa [← he.1] using hk)]
      exact ih

theorem index_same (h : Denotes pool globals d v) (h' : Denotes pool globals e w) :
    SameResult (Denotes pool globals) (d.index e) (v.index w) := by
  cases h with
  | @array id ds vs hl ha =>
    obtain ⟨_, ⟨⟩, hvs⟩ := denotes_array.mp (@Denotes.array pool globals id ds vs hl ha)
    cases h' with
    | int n =>
      change Denotes pool globals (if 0 ≤ n then ds[n.toNat]?.getD .null else .null)
        (if 0 ≤ n then vs[n.toNat]?.getD .null else .null)
      split
      · exact getElem?_same hvs _
      · exact .null
    | _ => exact .null
  | @hash id ds vs hk ha =>
    obtain ⟨_, ⟨⟩, hvs⟩ := denotes_hash.mp (@Denotes.hash pool globals id ds vs hk ha)
    change Denotes pool globals ((e.key?.bind (Datum.lookup? ds)).getD .null)
      ((w.key?.bind (Entries.get? vs)).getD .null)
    rw [h'.key?_eq]
    cases w.key? with
    | none => exact .null
    | some k => exact lookup?_same hvs k
  | _ => rfl

private theorem insert_same {ds : List (Key × Datum)} {vs : Entries}
    (h : SameEntries pool globals ds vs) (k : Key) (hd : Denotes pool globals d v) :
    SameEntries pool globals (Datum.insert ds k d) (vs.insert k v) := by
  induction h with
  | nil => exact .cons ⟨rfl, hd⟩ .nil
  | @cons e e' _ _ he hrest ih =>
    rw [Datum.insert, Entries.insert, ← he.1]
    split
    · exact .cons ⟨rfl, hd⟩ hrest
    · exact .cons he ih

/-- Keys and values in turn. -/
def Datum.flatten : List (Datum × Datum) → List Datum
  | [] => []
  | (k, d) :: rest => k :: d :: flatten rest

theorem entriesOf_same {pairs : List (Datum × Datum)} {ds : List (Key × Datum)} {vs : Entries}
    {values : List Value} (he : SameEntries pool globals ds vs)
    (h : List.Forall₂ (Denotes pool globals) (Datum.flatten pairs) values) :
    SameResult (SameEntries pool globals) (Datum.entriesOf ds pairs)
      (Entries.ofValues vs values) := by
  induction pairs generalizing ds vs values with
  | nil =>
    cases h
    exact he
  | cons pair rest ih =>
    cases h with
    | cons hk h =>
      cases h with
      | cons hd h =>
        rw [Datum.entriesOf, Entries.ofValues, Value.hashKey, hk.key?_eq, hk.kind_eq]
        cases Value.key? _ with
        | none => rfl
        | some key => exact ih (insert_same he key hd) h

/-- The result and the output of a builtin agree with a reply. -/
def SameReply (pool : Array Value) (globals : List Value) (r : Datum × List String)
    (reply : Builtin.Reply) : Prop :=
  Denotes pool globals r.1 reply.value ∧ r.2 = reply.written

/-- What the machine does for a builtin that takes an array, where it is not given one. -/
structure TakesArray (b : Builtin) : Prop where
  kind : ∀ fresh (v : Value), v.kind ≠ .array →
    b.apply fresh [v] = .error (.arrayArgument b v.kind)
  arity : ∀ fresh (vs : List Value), vs.length ≠ 1 →
    b.apply fresh vs = .error (.arity 1 vs.length)

theorem onArray_same {ds : List Datum} {vs : List Value} {b : Builtin} {fresh : Nat}
    {f : List Datum → Datum} (h : List.Forall₂ (Denotes pool globals) ds vs) (hb : TakesArray b)
    (hf : ∀ {id es ws}, List.Forall₂ (Denotes pool globals) es ws →
      SameResult (SameReply pool globals) (.ok (f es, [])) (b.apply fresh [.array id ws])) :
    SameResult (SameReply pool globals) (b.onArray f ds) (b.apply fresh vs) := by
  cases h with
  | nil =>
    rw [hb.arity fresh [] (by decide)]
    rfl
  | cons hd h =>
    cases h with
    | nil =>
      cases hd with
      | @array id es ws hl ha =>
        obtain ⟨_, ⟨⟩, hws⟩ := denotes_array.mp (@Denotes.array pool globals id es ws hl ha)
        exact hf hws
      | _ =>
        rw [hb.kind fresh _ (by simp [Value.kind])]
        rfl
    | @cons _ _ ds vs hd' h =>
      have hl : ds.length = vs.length := h.length_eq
      rw [hb.arity fresh _ (by simp), List.length_cons, List.length_cons, ← hl]
      cases hd <;> rfl

theorem takesArray {b : Builtin} (hb : b = .first ∨ b = .last ∨ b = .rest) : TakesArray b := by
  constructor
  · intro fresh v hv
    obtain rfl | rfl | rfl := hb <;> cases v <;> first | rfl | exact absurd rfl hv
  · intro fresh vs hvs
    match vs with
    | [] => obtain rfl | rfl | rfl := hb <;> rfl
    | [v] => exact absurd rfl hvs
    | v :: w :: vs =>
      obtain rfl | rfl | rfl := hb <;> cases v <;> try rfl
      rename_i ws
      cases ws <;> rfl

theorem applyTo_same {ds : List Datum} {vs : List Value}
    (h : List.Forall₂ (Denotes pool globals) ds vs) (b : Builtin) (fresh : Nat) :
    SameResult (SameReply pool globals) (b.applyTo fresh ds) (b.apply fresh vs) := by
  cases b with
  | puts =>
    refine ⟨.null, ?_⟩
    obtain ⟨hl, hget⟩ := List.forall₂_iff_get.mp h
    refine map_eq_map_of_getElem? hl fun i d v hd hv => ?_
    obtain ⟨hi, rfl⟩ := List.getElem?_eq_some_iff.mp hd
    obtain ⟨hi', rfl⟩ := List.getElem?_eq_some_iff.mp hv
    exact (hget i hi hi').inspect_eq
  | len =>
    cases h with
    | nil => rfl
    | cons hd h =>
      cases h with
      | nil =>
        cases hd with
        | str s => exact ⟨.int _, rfl⟩
        | @array _ es ws hl =>
          refine ⟨?_, rfl⟩
          change Denotes pool globals (.int es.length) (.int ws.length)
          rw [hl]
          exact .int _
        | _ => rfl
      | cons hd' h =>
        have hl := h.length_eq
        cases hd <;> exact congrArg (fun n : Nat => Fault.arity 1 (n + 1 + 1 : Nat)) hl
  | first =>
    refine onArray_same h (takesArray (.inl rfl)) fun {_ es ws} hws => ⟨?_, rfl⟩
    change Denotes pool globals (es.head?.getD .null) (ws.head?.getD .null)
    rw [List.head?_eq_getElem?, List.head?_eq_getElem?]
    exact getElem?_same hws 0
  | last =>
    refine onArray_same h (takesArray (.inr (.inl rfl))) fun {_ es ws} hws => ⟨?_, rfl⟩
    change Denotes pool globals (es.getLast?.getD .null) (ws.getLast?.getD .null)
    rw [List.getLast?_eq_getElem?, List.getLast?_eq_getElem?, hws.length_eq]
    exact getElem?_same hws _
  | rest =>
    refine onArray_same h (takesArray (.inr (.inr rfl))) fun hws => ?_
    cases hws with
    | nil => exact ⟨.null, rfl⟩
    | cons _ hws => exact ⟨denotes_array.mpr ⟨_, rfl, hws⟩, rfl⟩
  | push =>
    cases h with
    | nil => rfl
    | cons hd h =>
      cases h with
      | nil => cases hd <;> rfl
      | cons hd' h =>
        cases h with
        | nil =>
          cases hd with
          | @array id ds vs hl ha =>
            obtain ⟨_, ⟨⟩, hvs⟩ := denotes_array.mp (@Denotes.array pool globals id ds vs hl ha)
            exact ⟨denotes_array.mpr ⟨_, rfl, List.rel_append hvs (.cons hd' .nil)⟩, rfl⟩
          | _ => rfl
        | cons _ h =>
          have hl := h.length_eq
          cases hd <;> exact congrArg (fun n : Nat => Fault.arity 2 (n + 1 + 1 + 1 : Nat)) hl

end Operations

end ClosureVM
