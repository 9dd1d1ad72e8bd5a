import TagExpr.Eval
import TagExpr.Node.Patterns

/-!
# Programs

A tree is lowered to a program once, before it runs. The programs of its parts and its patterns are
made then; the tables of the expression that runs are not looked at, they arrive with the scope.
Lowering fails on a tree with a bad pattern and on no other, and a lowered tree means what the tree
means, in every scope (`lower_eq_some_iff`).
-/

namespace TagExpr

/-- All that a running program can touch. -/
structure Program.Scope where
  env : Environment
  calls : Calls
  fuel : Nat
  /-- The expression that runs, for its tables. -/
  unit : Expression
  /-- Where its local slots are. -/
  frame : FrameId

/-- A lowered tree. -/
abbrev Program := Program.Scope → Eval Value

namespace Program

/-- Runs some programs from left to right. -/
def all (s : Scope) : List Program → Eval (List Value)
  | [] => return []
  | p :: rest => do
    let v ← p s
    return v :: (← all s rest)

/-- Runs the programs of a key and its value. -/
def entry (s : Scope) (e : Program × Program) : Eval (Value × Value) := do
  let k ← e.1 s
  return (k, ← e.2 s)

/-- Runs the programs of the entries of a map literal from left to right. -/
def allEntries (s : Scope) : List (Program × Program) → Eval (List (Value × Value))
  | [] => return []
  | e :: rest => do
    let v ← entry s e
    return v :: (← allEntries s rest)

/-- An operator that chooses between its sides runs the right one on demand. -/
def binary (op : BinaryOp) (left right : Program) : Program :=
  match op with
  | .and => fun s => do
    if (← left s).isTruthy then return .bool (← right s).isTruthy else return .bool false
  | .or => fun s => do
    if (← left s).isTruthy then return .bool true else return .bool (← right s).isTruthy
  | .coalesce | .elvis | .ifPresent | .ifTruthy => fun s => do
    let l ← left s
    if Value.selectsRight op l then right s else return l
  | _ => fun s => do
    let l ← left s
    Eval.ofExcept (Value.binary s.env.host op l (← right s))

end Program

namespace Node

mutual

/-- The program of a tree. -/
def lower : Node → Option Program
  | .literal v => some fun _ => return v.value
  | .regex source => do
    let r ← Regex.compile? source
    return fun _ => return .regex r
  | .current levels => some fun _ => return (← Eval.context).sectionValue levels
  | .internal lookup name => some fun s => s.calls.internal lookup name
  | .localVar slot => some fun s => do
    match ← Eval.localValue? s.frame slot with
    | some v => return v
    | none => s.calls.missing
  | .binding template slot => some fun _ => return (← Eval.context).binding template slot
  | .identifier ident lookup => some fun s =>
    match s.unit.identifiers[ident]? with
    | some ref => Eval.resolve s.env.host ref lookup []
    | none => s.calls.missing
  | .call ident lookup args => do
    let args ← lowerList args
    return fun s => do
      let values ← Program.all s args
      match s.unit.identifiers[ident]? with
      | some ref => Eval.resolve s.env.host ref lookup values
      | none => s.calls.missing
  | .member receiver ident safe => do
    let receiver ← lower receiver
    return fun s => do
      let target ← receiver s
      match s.unit.identifiers[ident]? with
      | some ref => Eval.access s.env.host ref target [] safe
      | none => s.calls.missing
  | .method receiver ident args safe => do
    let receiver ← lower receiver
    let args ← lowerList args
    return fun s => do
      let target ← receiver s
      if target.isNull && safe then return .null
      else
        let values ← Program.all s args
        match s.unit.identifiers[ident]? with
        | some ref => Eval.access s.env.host ref target values safe
        | none => s.calls.missing
  | .index receiver key safe => do
    let receiver ← lower receiver
    let key ← lower key
    return fun s => do
      let target ← receiver s
      if target.isNull && safe then return .null
      else Eval.ofExcept (target.index s.env.host (← key s))
  | .named target args => do
    let args ← lowerList args
    return fun s => do
      let values ← Program.all s args
      match s.unit.expressions[target]? with
      | some callee => s.calls.invoke callee values
      | none => s.calls.missing
  | .recurse args => do
    let args ← lowerList args
    return fun s => do s.calls.invoke s.unit (← Program.all s args)
  | .annotated name args => do
    let args ← lowerList args
    return fun s => do Eval.annotate s.env name (← Program.all s args)
  | .unary op operand => do
    let operand ← lower operand
    return fun s => do Eval.ofExcept (Value.unary s.env.host op (← operand s))
  | .binary op left right => do
    let left ← lower left
    let right ← lower right
    return Program.binary op left right
  | .ternary condition yes no => do
    let condition ← lower condition
    let yes ← lower yes
    let no ← lower no
    return fun s => do
      if (← condition s).isTruthy then yes s else no s
  | .concat parts => do
    let parts ← lowerList parts
    return fun s => do
      return .str (String.join ((← Program.all s parts).map (Value.display s.env.host)))
  | .list items => do
    let items ← lowerList items
    return fun s => return .list (← Program.all s items)
  | .set items => do
    let items ← lowerList items
    return fun s => return Value.ofItems (← Program.all s items)
  | .map entries => do
    let entries ← lowerEntries entries
    return fun s => return Value.ofEntries (← Program.allEntries s entries)
  | .assignLocal slot value => do
    let value ← lower value
    return fun s => do
      let v ← value s
      Eval.setLocal s.frame slot v
      return v
  | .assignBinding template slot value => do
    let value ← lower value
    return fun s => do
      let v ← value s
      let c ← Eval.ofExcept ((← Eval.context).setBinding template slot v)
      Eval.modifyContext fun _ => c
      return v
  | .sequence items => do
    let items ← lowerList items
    return fun s => return (← Program.all s items).getLastD .null
  | .stream op source slot body => do
    let source ← lower source
    -- The body runs when elements are taken; a stage keeps its tree, which has a program as well.
    let _ ← lower body
    return fun s => do
      let input ← Eval.streamOf s.env.host (← source s)
      s.calls.applyStage s.fuel
        { input, body, unit := s.unit, frame := s.frame, binding := slot } op
termination_by structural n => n

/-- The programs of some trees. -/
def lowerList : List Node → Option (List Program)
  | [] => some []
  | n :: rest => do
    let p ← lower n
    return p :: (← lowerList rest)

/-- The programs of the keys and values of a map literal. -/
def lowerEntries : List (Node × Node) → Option (List (Program × Program))
  | [] => some []
  | entry :: rest => do
    let p ← lowerEntry entry
    return p :: (← lowerEntries rest)

/-- The programs of the key and the value of an entry. -/
def lowerEntry : Node × Node → Option (Program × Program)
  | (key, value) => do
    let k ← lower key
    return (k, ← lower value)

end

/-- All of these are patterns. -/
def arePatterns (sources : List String) : Bool :=
  sources.all fun source => (Regex.compile? source).isSome

/-- What a tree means in a scope. -/
def meaning (n : Node) : Program := fun s => n.eval s.env s.calls s.fuel s.unit s.frame

/-- What the key and the value of an entry mean. -/
def meanings (entry : Node × Node) : Program × Program := (entry.1.meaning, entry.2.meaning)

theorem all_meaning (s : Program.Scope) (ns : List Node) :
    Program.all s (ns.map meaning) = evalList s.env s.calls s.fuel s.unit s.frame ns := by
  induction ns with
  | nil => rfl
  | cons n rest ih =>
    simp only [List.map_cons, Program.all, evalList, ih]
    rfl

theorem allEntries_meanings (s : Program.Scope) (es : List (Node × Node)) :
    Program.allEntries s (es.map meanings) =
      evalEntries s.env s.calls s.fuel s.unit s.frame es := by
  induction es with
  | nil => rfl
  | cons e rest ih =>
    obtain ⟨key, value⟩ := e
    simp only [List.map_cons, Program.allEntries, evalEntries, ih]
    rfl

theorem binary_meaning (op : BinaryOp) (left right : Node) :
    Program.binary op left.meaning right.meaning = (binary op left right).meaning := by
  cases op <;> rfl

theorem arePatterns_append (xs ys : List String) :
    arePatterns (xs ++ ys) = (arePatterns xs && arePatterns ys) :=
  List.all_append

mutual

theorem lower_eq : ∀ n : Node,
    n.lower = bif arePatterns n.patterns then some n.meaning else none
  | .literal _ | .current _ | .internal _ _ | .localVar _ | .binding _ _ | .identifier _ _ => rfl
  | .regex source => by
    have heval (r : Regex) (h : Regex.compile? source = some r) :
        (regex source).meaning = fun _ => pure (.regex r) := by
      funext s
      show (regex source).eval _ _ _ _ _ = _
      rw [eval, h]
    cases h : Regex.compile? source with
    | none => simp [lower, patterns, arePatterns, h]
    | some r => simp [lower, patterns, arePatterns, h, heval r h]
  | .call _ _ as | .named _ as | .recurse as | .annotated _ as | .concat as | .list as | .set as
  | .sequence as => by
    simp only [lower, patterns, lowerList_eq as]
    cases arePatterns (patternsOfList as) with
    | false => rfl
    | true =>
      simp only [cond_true, Option.bind_eq_bind, Option.bind_some, all_meaning]
      rfl
  | .map es => by
    simp only [lower, patterns, lowerEntries_eq es]
    cases arePatterns (patternsOfEntries es) with
    | false => rfl
    | true =>
      simp only [cond_true, Option.bind_eq_bind, Option.bind_some, allEntries_meanings]
      rfl
  | .member x _ _ | .unary _ x | .assignLocal _ x | .assignBinding _ _ x => by
    simp only [lower, patterns, lower_eq x]
    cases arePatterns x.patterns with
    | false => rfl
    | true => rfl
  | .method x _ as _ => by
    simp only [lower, patterns, lower_eq x, lowerList_eq as, arePatterns_append]
    cases arePatterns x.patterns with
    | false => rfl
    | true =>
      cases arePatterns (patternsOfList as) with
      | false => rfl
      | true =>
        simp only [cond_true, Option.bind_eq_bind, Option.bind_some, all_meaning]
        rfl
  | .index x y _ | .stream _ x _ y => by
    simp only [lower, patterns, lower_eq x, lower_eq y, arePatterns_append]
    cases arePatterns x.patterns with
    | false => rfl
    | true => cases arePatterns y.patterns <;> rfl
  | .binary op x y => by
    simp only [lower, patterns, lower_eq x, lower_eq y, arePatterns_append, ← binary_meaning]
    cases arePatterns x.patterns with
    | false => rfl
    | true => cases arePatterns y.patterns <;> rfl
  | .ternary x y z => by
    simp only [lower, patterns, lower_eq x, lower_eq y, lower_eq z, arePatterns_append]
    cases arePatterns x.patterns with
    | false => rfl
    | true =>
      cases arePatterns y.patterns with
      | false => rfl
      | true => cases arePatterns z.patterns <;> rfl

theorem lowerList_eq : ∀ ns : List Node,
    lowerList ns = bif arePatterns (patternsOfList ns) then some (ns.map meaning) else none
  | [] => rfl
  | n :: rest => by
    simp only [lowerList, patternsOfList, lower_eq n, lowerList_eq rest, arePatterns_append]
    cases arePatterns n.patterns with
    | false => rfl
    | true => cases arePatterns (patternsOfList rest) <;> rfl

theorem lowerEntries_eq : ∀ es : List (Node × Node),
    lowerEntries es = bif arePatterns (patternsOfEntries es) then some (es.map meanings) else none
  | [] => rfl
  | e :: rest => by
    simp only [lowerEntries, patternsOfEntries, lowerEntry_eq e, lowerEntries_eq rest,
      arePatterns_append]
    cases arePatterns (patternsOfEntry e) with
    | false => rfl
    | true => cases arePatterns (patternsOfEntries rest) <;> rfl

theorem lowerEntry_eq : ∀ e : Node × Node,
    lowerEntry e = bif arePatterns (patternsOfEntry e) then some (meanings e) else none
  | (key, value) => by
    simp only [lowerEntry, patternsOfEntry, lower_eq key, lower_eq value, arePatterns_append]
    cases arePatterns key.patterns with
    | false => rfl
    | true => cases arePatterns value.patterns <;> rfl

end

/-- Lowering fails on a bad pattern and on nothing else, and a program means what the tree means. -/
theorem lower_eq_some_iff {n : Node} {p : Program} :
    n.lower = some p ↔ arePatterns n.patterns ∧ p = n.meaning := by
  rw [lower_eq]
  cases arePatterns n.patterns with
  | false => simp
  | true => simp [eq_comm]

end Node

end TagExpr
