import TagExpr.Eval
import TagExpr.Proofs.Compile
import TagExpr.Proofs.Eval.Upkeep
import TagExpr.Proofs.Identifier.Trust
import TagExpr.Proofs.Placing.Interpolation
import TagExpr.Proofs.Token.OperandPosition

/-!
# Names and the frames they select

A look-up asks the frames that it searches for a member, one after the other, until one has it. A
member that is there with the value null, or that fails, is found; only where there is none does the
search go on (`run_searchMember`). What identifiers have learnt before shows in no answer.

A name, by itself or with an empty argument list, is parsed as the mention of a member, and the
marks before it as the frames in which the member is looked up (`Parse.run_mention`); a path of dots
is parsed as the value of a frame. What a compiled mention comes to is the member in those frames,
and in no others (`names_reach_frames`). It is so as long as its identifiers can be trusted, which
they can whatever has been done before (`Means.wherever`).
-/

namespace TagExpr

/-! ## Members of values -/

/-- A member of a value, read or called without arguments: none if there is no such member, null if
it fails. -/
def Value.member? (h : Host) (key : IdentKey) (next : ObjectId) (v : Value) : Option Value :=
  (((Identifier.fresh key).get h v []).run next).1.1

/-- Where it leads, there is a call on the receiver that fails. -/
def Resolver.Fails (h : Host) (receiver : Value) (next : ObjectId) : Resolver → Prop
  | builtin m => ∃ fault, m.call h receiver [] = .error fault
  | method t call => ∃ id tag carrier content, receiver = .object id tag carrier content ∧
      ∀ inner, t.accept? carrier content = some inner →
        ∃ e next', (call (Value.display h) inner []).run next = .error e next'
  | staticMethod call => (∃ tag, receiver = .type tag) ∧
      ∃ e next', (call (Value.display h) []).run next = .error e next'
  | _ => False

section

variable {h : Host} {key : IdentKey} {next : ObjectId} {v : Value} {r : Resolver}

theorem Value.member?_eq (h : Host) (key : IdentKey) (next : ObjectId) (v : Value) :
    v.member? h key next =
      ((((Resolver.find? h key v 0).getD .missing).follow h key.name v []).run next).1 := by
  rw [Value.member?, Identifier.run_get]
  rfl

/-- A member that fails is there. -/
theorem Value.member?_of_fails (way : Resolver.find? h key v 0 = some r)
    (fails : r.Fails h v next) : v.member? h key next = some .null := by
  rw [member?_eq, way, Option.getD_some]
  cases r with
  | builtin m =>
    obtain ⟨fault, call⟩ := fails
    simp only [Resolver.follow, call]
    rfl
  | method t call =>
    obtain ⟨id, tag, carrier, content, rfl, failing⟩ := fails
    simp only [Resolver.follow]
    cases accepted : t.accept? carrier content with
    | none => rfl
    | some inner =>
      obtain ⟨e, next', run⟩ := failing inner accepted
      simp only [Resolver.settle, StateT.run, run]
  | staticMethod call =>
    obtain ⟨⟨tag, rfl⟩, e, next', run⟩ := fails
    simp only [Resolver.follow, Resolver.settle, StateT.run, run]
  | mapLookup | hostLookup | field | staticField | missing => cases fails

/-- The properties of a map are its entries; one with the value null is there. -/
theorem Value.member?_map (h : Host) (name : String) (next : ObjectId)
    (entries : List (Value × Value)) :
    (Value.map entries).member? h (.property name) next = Value.find? entries (.str name) := by
  rw [member?_eq]
  rfl

end

/-! ## Frames that are searched -/

namespace Eval

variable {h : Host} {ref : IdentifierRef} {m : Machine}

/-- A value is asked for the member alone. Where there is none, no host objects are made. -/
theorem run_member (trusted : ref.Trusted h m) (v : Value) :
    ∃ m', member h ref v [] m = .ok (v.member? h ref.key m.nextObject) m' ∧
      m'.context = m.context ∧ ref.Trusted h m' ∧
      (v.member? h ref.key m.nextObject = none → m'.nextObject = m.nextObject) := by
  let reached :=
    (((Identifier.fresh ref.key).way h v []).follow h ref.key.name v []).run m.nextObject
  have found : v.member? h ref.key m.nextObject = reached.1 := by
    rw [Value.member?, Identifier.run_get]
    rfl
  refine ⟨{ m with
    identifiers := m.identifiers.insert ref.id
      ((m.identifiers.getD ref.id (.fresh ref.key)).resolver h v []).2
    nextObject := reached.2 }, ?_, rfl, ?_, fun missed => ?_⟩
  · have read : member h ref v [] m =
        let got := ((m.identifiers.getD ref.id (.fresh ref.key)).get h v []).run m.nextObject
        .ok got.1.1 { m with
          identifiers := m.identifiers.insert ref.id got.1.2
          nextObject := got.2 } := rfl
    rw [read, trusted.run_get, found]
    rfl
  · rw [IdentifierRef.Trusted, Std.HashMap.getD_insert_self]
    exact trusted.learn v []
  · have silent : ((Identifier.fresh ref.key).way h v []).answers ref.key.name v = false := by
      rw [← Resolver.isSome_follow (h := h) _ _ _ [] m.nextObject]
      exact (found.symm.trans missed) ▸ rfl
    exact congrArg Prod.snd (Resolver.follow_of_not_answers (h := h) silent [] m.nextObject)

/-- The first frame that has the member gives it. -/
theorem run_searchMember (frames : List Section) (trusted : ref.Trusted h m) :
    ∃ m', searchMember h ref [] frames m =
        .ok ((frames.findSome? (·.value.member? h ref.key m.nextObject)).getD .null) m' ∧
      m'.context = m.context := by
  induction frames generalizing m with
  | nil => exact ⟨m, rfl, rfl⟩
  | cons s rest ih =>
    obtain ⟨m₁, read, context, trusted₁, silent⟩ := run_member trusted s.value
    rw [List.findSome?_cons]
    cases found : s.value.member? h ref.key m.nextObject with
    | some v =>
      rw [found] at read
      refine ⟨m₁, ?_, context⟩
      simp only [searchMember, bind, EStateM.bind, read]
      rfl
    | none =>
      rw [found] at read
      obtain ⟨m', searched, context'⟩ := ih trusted₁
      rw [silent found] at searched
      refine ⟨m', ?_, context'.trans context⟩
      simp only [searchMember, bind, EStateM.bind, read]
      exact searched

end Eval

/-! ## Look-ups -/

/-- The value of a member in the frames that a look-up searches, innermost first. -/
def Lookup.valueIn (lookup : Lookup) (find : Value → Option Value) (frames : List Section) :
    Value :=
  match lookup with
  | .unstated => (frames.findSome? fun s => find s.value).getD .null
  | .backreach levels => (frames[levels]?.bind fun s => find s.value).getD .null
  | .root => (frames.getLast?.bind fun s => find s.value).getD .null

theorem findSome?_toList {α β : Type} (o : Option α) (f : α → Option β) :
    o.toList.findSome? f = o.bind f := by
  cases o with
  | none => rfl
  | some a => simp

/-- A look-up with marks asks one frame, and any other asks all of them in order. -/
theorem Eval.run_resolve {h : Host} {ref : IdentifierRef} {m : Machine} (lookup : Lookup)
    (trusted : ref.Trusted h m) :
    ∃ m', Eval.resolve h ref lookup [] m =
        .ok (lookup.valueIn (·.member? h ref.key m.nextObject) m.context.sections.toList) m' ∧
      m'.context = m.context := by
  obtain ⟨m', searched, context⟩ := run_searchMember (m.context.searched lookup) trusted
  refine ⟨m', ?_, context⟩
  have read : Eval.resolve h ref lookup [] m =
      Eval.searchMember h ref [] (m.context.searched lookup) m := rfl
  rw [read, searched]
  cases lookup with
  | unstated => rfl
  | backreach levels =>
    simp only [Context.searched, Context.section?, Stack.peekAt?, findSome?_toList]
    rfl
  | root =>
    have base : m.context.sections.bottomUp[0]? = m.context.sections.toList.getLast? := by
      rw [Stack.bottomUp, ← List.head?_eq_getElem?, List.head?_reverse]
    simp only [Context.searched, Context.section?, Stack.peekBase?, base, findSome?_toList]
    rfl

end TagExpr

namespace TagExpr

open Parse
open Token (Marks Gap NameEnds opener upward)
open Signature (IsName)

theorem Stack.push_empty {α : Type} (a : α) : (Stack.empty : Stack α).push a = ⟨[a]⟩ := rfl

/-! ## The parse of a mention -/

/-- The member that a name mentions, by itself or with an empty argument list. -/
def mentioned (name : List Char) (call : Bool) : IdentKey :=
  if call then .method (String.ofList name) 0 else .property (String.ofList name)

/-- The mention of a member. -/
def mention (ident : Nat) (lookup : Lookup) (call : Bool) : Node :=
  if call then .call ident lookup [] else .identifier ident lookup

/-- What ends the empty argument list. -/
def closing (call : Bool) : List Char := if call then [')'] else []

/-- A name, by itself or with an empty argument list. -/
def spelling (name : List Char) (call : Bool) : List Char := name ++ (opener call ++ closing call)

/-- A path stands for a frame above the innermost one. -/
theorem Token.token_upward (more : Nat) :
    Token.OperandClass.path.token (upward more) = .ok (.ident { kind := .current (more + 1) }) := by
  have levels : Token.pathLevels (upward more) = more + 1 := by
    have further := Token.furtherParents_append more []
    rw [List.append_nil] at further
    show 1 + Token.furtherParents (List.replicate more "/..".toList).flatten = more + 1
    rw [further, Nat.add_comm]
    rfl
  rw [Token.OperandClass.token, levels]

namespace Parse

variable {ε : Type} {b : Bench ε} {o : Operand} {Q : Operand → Bench ε → Prop}
  {E : ParseError → Bench ε → Prop} {fuel base : Nat} {at_ after : Cursor} {span : Span} {i : Ident}
  {name : String} {lookup : Lookup}

/-- The name stands for a member of the section frames: no local and no binding has it, and no
named expression, which is all that a call looks for. -/
structure Bench.Unbound (b : Bench ε) (name : String) (call : Bool) : Prop where
  slot : call = false → b.tables.local? name = none
  binding : call = false → b.scope.findBinding? name = none
  named : b.scope.extensions.namedExpressions = true → b.scope.named? name = none

theorem Tables.getElem?_identifier (t : Tables ε) (key : IdentKey) :
    (t.identifier key).2.identifiers[(t.identifier key).1]? = some key := by
  unfold Tables.identifier
  split
  case h_1 index found =>
    obtain ⟨here, same, -⟩ := List.findIdx?_eq_some_iff_getElem.mp found
    rw [List.getElem?_eq_getElem here, eq_of_beq same]
  case h_2 => simp

theorem namedCall?_of_unnamed (args : List Node)
    (unnamed : b.scope.extensions.namedExpressions = true → b.scope.named? name = none) :
    namedCall? name args b = .ok none b := by
  have ends : Ends (namedCall? name args) b (fun a b' => a = none ∧ b' = b) fun _ _ => False := by
    unfold namedCall?
    rw [ends_bind, ends_get]
    cases hx : b.scope.extensions.namedExpressions with
    | false => exact ⟨rfl, rfl⟩
    | true =>
      rw [unnamed hx]
      exact ⟨rfl, rfl⟩
  obtain ⟨_, _, ran, rfl, rfl⟩ := ends.exists_ok
  exact ran

/-- A name that stands for a member is resolved as its property. -/
theorem ends_resolveName_property (span : Span)
    (unbound : lookup = .unstated → b.Unbound name false) {Q : Operand → Bench ε → Prop}
    {E : ParseError → Bench ε → Prop}
    (hQ : ∀ bare ident tables, tables.identifiers[ident]? = some (.property name) →
      Q { Operand.object (.identifier ident lookup) span with name := bare } { b with tables }) :
    Ends (resolveName name lookup span) b Q E := by
  have key := Tables.getElem?_identifier b.tables (.property name)
  unfold resolveName
  by_cases marked : lookup = .unstated
  · subst marked
    obtain ⟨slot, binding, named⟩ := unbound rfl
    simp only [ne_eq, not_true_eq_false, if_false, ends_bind, ends_get, slot rfl, binding rfl]
    rw [ends_of_ok (namedCall?_of_unnamed [] named)]
    simp only [identifier, ends_bind, ends_withTables, ends_pure]
    exact hQ _ _ _ key
  · simp only [ne_eq, marked, not_false_eq_true, if_true, identifier, ends_bind, ends_withTables,
      ends_pure]
    exact hQ none _ _ key

/-- A closing parenthesis is read, and the text is at its end. -/
theorem next_parenthesis (hat : at_.rest = [')']) :
    ∃ span after, Token.next .operand at_ = .ok (⟨.operator ")", span⟩, after) ∧
      after.rest = [] := by
  obtain ⟨offset, rest⟩ := at_
  obtain rfl : rest = [')'] := hat
  exact ⟨_, _, rfl, rfl⟩

/-- The call that waits for its arguments. -/
def Pending.ofCall (name : String) (lookup : Lookup) (span : Span) : Pending :=
  { op := .call, span, base := 0, extra := .bareCall name lookup }

/-- Closed at once, the call has no arguments. -/
theorem ends_close_call {opened : Span} (unbound : lookup = .unstated → b.Unbound name true)
    (hoperands : b.operands = .empty) (span : Span) {Q : Unit → Bench ε → Prop}
    (hQ : ∀ span ident tables, tables.identifiers[ident]? = some (.method name 0) →
      Q () { b with tables, operators := .empty,
                    operands := ⟨[.object (.call ident lookup []) span]⟩ }) :
    Ends (closeWithoutOperand ")" span) { b with operators := ⟨[.ofCall name lookup opened]⟩ }
      Q E := by
  have key := Tables.getElem?_identifier b.tables (.method name 0)
  obtain ⟨scope, tables, operands, operators⟩ := b
  cases hoperands
  simp only [closeWithoutOperand, close, reduceToContainer, reduceWhile, applyWhile, Pending.ofCall,
    Operator.call, OpKind.isContainer, OpKind.closer?, Stack.peek?, Stack.size, Stack.pop?,
    Stack.popMany?, closeContainer, closeCall, ends_bind, ends_get, ends_set, ends_pure,
    List.head?_cons, List.map_nil, List.length_nil, Option.isSome_some, Bool.not_true,
    Bool.false_eq_true, if_false, Bool.false_or, Nat.add_zero, ne_eq, not_true_eq_false,
    decide_false, Nat.sub_self, Nat.le_refl, if_true, List.take_zero, List.reverse_nil,
    List.drop_zero, Option.getD_some, false_and]
  by_cases bare : lookup = .unstated
  · rw [if_pos bare]
    have quiet : namedCall? name [] ({ scope, tables } : Bench ε) = .ok none { scope, tables } :=
      namedCall?_of_unnamed [] (unbound bare).named
    rw [ends_bind]
    exact (ends_of_ok quiet).mpr (hQ _ _ _ key)
  · rw [if_neg bare]
    exact hQ _ _ _ key

/-- An empty argument list makes a call of the name before it. -/
theorem ends_rounds_called
    (hnext : Token.next .operand at_ = .ok (⟨.ident ⟨.name name, lookup, true⟩, span⟩, after))
    (hafter : after.rest = [')']) (unbound : lookup = .unstated → b.Unbound name true)
    (hoperands : b.operands = .empty) (hoperators : b.operators = .empty)
    (hQ : ∀ span ident tables, tables.identifiers[ident]? = some (.method name 0) →
      Q (.object (.call ident lookup []) span)
        { b with tables, operators := .empty,
                 operands := ⟨[.object (.call ident lookup []) span]⟩ }) :
    Ends (rounds (fuel + 3) .operand base at_) b Q E := by
  obtain ⟨closing, last, hnext', hlast⟩ := next_parenthesis hafter
  have waits :
      b.operators.push ⟨.call, span.shift base, b.operands.size, 0, .bareCall name lookup⟩ =
        ⟨[.ofCall name lookup (span.shift base)]⟩ := by
    rw [hoperands, hoperators]
    rfl
  unfold rounds
  rw [ends_bind, ends_readToken, hnext]
  simp only [operand, ident, if_true, ends_bind, ends_pushOperator, ends_pure, waits]
  unfold rounds
  rw [ends_bind, ends_readToken, hnext']
  simp only [operand, Operator.closers, List.contains_cons, BEq.rfl, Bool.true_or, if_true,
    ends_bind]
  refine ends_close_call unbound hoperands _ fun span ident tables key => ?_
  exact ends_rounds_end hlast (by simp [Operand.isPair, Operand.object]) rfl rfl (hQ _ _ _ key)

section Run

variable {text : String} {offset : Nat} {scope : TemplateScope ε} {r : Round ε}
  {gap marks name : List Char} {call : Bool}

/-- The run on the first round begins with empty stacks, and lasts for the text that is left. -/
theorem run_of_bodyOf (started : firstRound? text offset scope = some r) {rest : List Char}
    (body : (bodyOf scope.extensions text).rest = rest) :
    ∃ place, r.run = rounds (rest.length + 1) .operand offset ⟨place, rest⟩ r.bench ∧
      r.bench.operands = .empty ∧ r.bench.operators = .empty := by
  have start := firstRound?_start started
  refine ⟨(bodyOf scope.extensions text).offset, ?_, ?_, ?_⟩
  · rw [start, ← body]
    rfl
  · rw [start]
    rfl
  · rw [start]
    rfl

theorem nameEnds_closing (call : Bool) : NameEnds call (closing call) := by
  rintro rfl
  exact ⟨fun c hc => (by cases hc), by simp [closing]⟩

/-- A name is a mention of the member of that name. -/
theorem run_mention (started : firstRound? text offset scope = some r)
    (filler : Gap .operand false gap) (hm : Marks lookup marks) (hn : IsName name)
    (plain : String.ofList name ∉ Signature.keywords)
    (body : (bodyOf scope.extensions text).rest = gap ++ (marks ++ spelling name call))
    (unbound : lookup = .unstated → r.bench.Unbound (String.ofList name) call) :
    ∃ o b, r.run = .ok o b ∧ ∃ ident, o.node = mention ident lookup call ∧
      b.tables.identifiers[ident]? = some (mentioned name call) := by
  obtain ⟨place, run, hoperands, hoperators⟩ := run_of_bodyOf started body
  let found : Cursor := ⟨place + byteLength gap, marks ++ spelling name call⟩
  have hat : found.rest = marks ++ (name ++ (opener call ++ closing call)) := rfl
  obtain ⟨span, after, hread, hafter⟩ :=
    Token.read_name hm hn (nameEnds_closing call) (fun _ _ => plain) hat
  have clear : Token.Clear (marks ++ spelling name call) := by
    have := Token.clear_of_marks hm (Token.dotted_of_name hn call) (closing call)
    rwa [List.append_assoc] at this
  have some_text : (marks ++ spelling name call).isEmpty = false := by
    simp [spelling, hn.1]
  have hnext := Token.next_of_clear (by decide) (some_text ▸ filler) clear place
  rw [hread] at hnext
  cases call with
  | false =>
    obtain ⟨fuel, lasts⟩ : ∃ fuel,
        (gap ++ (marks ++ spelling name false)).length + 1 = fuel + 2 := by
      have := List.length_pos_iff.mpr hn.1
      exact ⟨(gap ++ (marks ++ spelling name false)).length - 1, by simp [spelling]; omega⟩
    rw [run, lasts]
    refine Ends.exists_ok (ends_rounds_word hnext hafter ?_)
    simp only [ident, Bool.false_eq_true, if_false, ends_bind, ends_pushOperand, ends_pure]
    refine ends_resolveName_property _ unbound fun bare index tables key => ?_
    refine ⟨trivial, _, ?_, by rw [hoperands, Stack.push_empty], hoperators, index, rfl, key⟩
    simp [Operand.isPair, Operand.object]
  | true =>
    obtain ⟨fuel, lasts⟩ : ∃ fuel,
        (gap ++ (marks ++ spelling name true)).length + 1 = fuel + 3 := by
      have := List.length_pos_iff.mpr hn.1
      refine ⟨(gap ++ (marks ++ spelling name true)).length - 2, ?_⟩
      simp [spelling, opener, closing]
      omega
    rw [run, lasts]
    exact Ends.exists_ok (ends_rounds_called hnext hafter unbound hoperands hoperators
      fun span index tables key => ⟨index, rfl, key⟩)

/-- A path is the value of a frame. -/
theorem run_upward (started : firstRound? text offset scope = some r)
    (filler : Gap .operand false gap) (more : Nat)
    (body : (bodyOf scope.extensions text).rest = gap ++ upward more) :
    ∃ o b, r.run = .ok o b ∧ o.node = .current (more + 1) := by
  obtain ⟨place, run, hoperands, hoperators⟩ := run_of_bodyOf started body
  have ends : ([] : List Char).head? ≠ some '/' := by simp
  have found := Token.longestClass?_upward more ends
  have clear : Token.Clear (upward more) := by
    have dots := Token.upward_append more []
    rw [List.append_nil] at dots
    rw [dots]
    exact Token.clear_of_startsIn (Token.startsIn_cons rfl fun _ slash => by cases slash)
  have some_text : upward more ≠ [] := by simp [upward]
  let start : Cursor := ⟨place + byteLength gap, upward more⟩
  have hat : start.rest = upward more ++ [] := (List.append_nil _).symm
  obtain ⟨span, after, hread, hafter⟩ :=
    Token.read_of_class hat some_text found (Token.token_upward more)
  have hnext := Token.next_of_clear (by decide)
    (List.isEmpty_eq_false_iff.mpr some_text ▸ filler) clear place
  rw [hread] at hnext
  obtain ⟨fuel, lasts⟩ : ∃ fuel, (gap ++ upward more).length + 1 = fuel + 2 :=
    ⟨(gap ++ upward more).length - 1, by simp [Token.length_upward]; omega⟩
  rw [run, lasts]
  refine Ends.exists_ok (ends_rounds_word hnext hafter ?_)
  simp only [ident, ends_bind, ends_pushOperand, ends_pure]
  refine ⟨trivial, .object (.current (more + 1)) (span.shift offset), ?_,
    by rw [hoperands, Stack.push_empty], hoperators, rfl⟩
  simp [Operand.isPair, Operand.object]

end Run

end Parse

/-! ## What the compiled text means -/

section Meaning

variable {c : Compiler} {t : Template} {text : String} {offset : Nat} {r : Round Expression}
  {o : Operand} {b : Bench Expression}

/-- A tree without patterns has a program. -/
theorem Compiler.program?_of_no_patterns (c : Compiler) {n : Node} (plain : n.patterns = []) :
    ∃ found, c.program? n = some found := by
  unfold Compiler.program?
  cases c.programs.findIdx? (· == n) with
  | some index => exact ⟨_, rfl⟩
  | none => exact ⟨_, by rw [plain]; rfl⟩

/-- What is parsed without patterns is compiled. -/
theorem compile_of_run (c : Compiler) (started : firstRound? text offset t.scope = some r)
    (ran : r.run = .ok o b) (plain : o.node.patterns = []) :
    ∃ e t' c', c.compile t text offset = (.ok e, t', c') ∧ e.body = o.node ∧
      e.identifiers.map (·.key) = b.tables.identifiers := by
  obtain ⟨p, parsed, gathers⟩ := parse_of_run started ran
  obtain ⟨⟨program, c₁⟩, found⟩ := c.program?_of_no_patterns (gathers.node ▸ plain)
  unfold Compiler.compile
  simp only [parsed, found]
  exact ⟨_, _, _, rfl, gathers.node, (c₁.keys_identifiers _ _).trans gathers.identifiers⟩

/-- The sections that an expression sees, innermost first. The first argument is the innermost. -/
def Context.frames (c : Context) (args : List Value) : List Section :=
  (c.enterCall args.head?).sections.toList

/-- The text compiles, and what it comes to under the limit of calls is what `value` makes of the
sections that it sees; host objects are numbered from the number given. The context stays. -/
def Means (c : Compiler) (t : Template) (text : String) (offset : Nat)
    (value : Host → ObjectId → List Section → Value) : Prop :=
  ∃ e t' c', c.compile t text offset = (.ok e, t', c') ∧
    ∀ env args m, m.context.callDepth < m.context.maxCallDepth →
      (∀ ref ∈ e.identifiers, ref.Trusted env.host m) →
      ∃ m', e.tryEvaluate env args m =
        .ok (value env.host m.nextObject (m.context.frames args)) m' ∧ m'.context = m.context

/-- An expression comes to what its tree comes to in the call. -/
theorem tryEvaluate_of_eval {env : Environment} {e : Expression} {args : List Value} {m : Machine}
    {v : Value} (room : m.context.callDepth < m.context.maxCallDepth)
    (runs : ∀ calls fuel frame frames, ∃ m',
      e.body.eval env calls fuel e frame
          { m with frames, context := m.context.enterCall args.head? } = .ok v m' ∧
        m'.context = m.context.enterCall args.head?) :
    ∃ m', e.tryEvaluate env args m = .ok v m' ∧ m'.context = m.context := by
  let levels := Calls.maxLevels - 1
  let calls := Calls.ofLevels env (pure .null) levels
  have level (frame : FrameId) : (Calls.full env).run e frame e.body =
      e.body.eval env calls levels e frame := rfl
  obtain ⟨m', ran, context⟩ := runs calls levels m.frames.size
    (m.frames.push (e.initialSlots .null args).toArray)
  refine ⟨{ m' with context := m'.context.leaveCall args.head? }, ?_, ?_⟩
  · rw [Expression.tryEvaluate, Calls.invoke_below _ _ _ room]
    simp only [Eval.located, Eval.during, level, ran]
  · rw [context, Context.leaveCall_enterCall]

/-- A mention is looked up. -/
theorem eval_mention {env : Environment} {calls : Calls} {fuel : Nat} {e : Expression}
    {frame : FrameId} {ident : Nat} {ref : IdentifierRef} (known : e.identifiers[ident]? = some ref)
    (lookup : Lookup) (call : Bool) :
    (mention ident lookup call).eval env calls fuel e frame =
      Eval.resolve env.host ref lookup [] := by
  cases call with
  | false =>
    rw [mention, if_neg Bool.false_ne_true, Node.eval, known]
  | true =>
    rw [mention, if_pos rfl, Node.eval, Node.evalList, pure_bind, known]

theorem means_of_mention (c : Compiler) {key : IdentKey} {ident : Nat} {call : Bool}
    {lookup : Lookup} (started : firstRound? text offset t.scope = some r) (ran : r.run = .ok o b)
    (node : o.node = mention ident lookup call) (known : b.tables.identifiers[ident]? = some key) :
    Means c t text offset fun h next frames => lookup.valueIn (·.member? h key next) frames := by
  have plain : o.node.patterns = [] := by
    rw [node]
    cases call <;> rfl
  obtain ⟨e, t', c', compiled, body, keys⟩ := compile_of_run c started ran plain
  refine ⟨e, t', c', compiled, fun env args m room trusted => ?_⟩
  rw [← keys, List.getElem?_map, Option.map_eq_some_iff] at known
  obtain ⟨ref, known, rfl⟩ := known
  have trust : ref.Trusted env.host m := trusted ref (List.mem_of_getElem? known)
  refine tryEvaluate_of_eval room fun calls fuel frame frames => ?_
  rw [body, node, eval_mention known]
  exact Eval.run_resolve (m := { m with frames, context := m.context.enterCall args.head? })
    lookup trust

theorem means_of_path (c : Compiler) {levels : Nat}
    (started : firstRound? text offset t.scope = some r) (ran : r.run = .ok o b)
    (node : o.node = .current levels) :
    Means c t text offset fun _ _ frames => (frames[levels]?.map Section.value).getD .null := by
  obtain ⟨e, t', c', compiled, body, -⟩ := compile_of_run c started ran (node ▸ rfl)
  refine ⟨e, t', c', compiled, fun env args m room _ => ?_⟩
  refine tryEvaluate_of_eval room fun calls fuel frame frames => ?_
  rw [body, node]
  refine ⟨{ m with frames, context := m.context.enterCall args.head? }, ?_, rfl⟩
  have read (context : Context) : context.sectionValue levels =
      (context.sections.toList[levels]?.map Section.value).getD .null := by
    unfold Context.sectionValue Stack.peekAt?
    cases context.sections.toList[levels]? <;> rfl
  exact congrArg (EStateM.Result.ok · _) (read _)

/-- A text that is compiled in one of the files means the same ever after: whatever is compiled,
evaluated and read before or later on, its identifiers can be trusted. -/
theorem Means.wherever {env : Environment} {s : Engine} {i : Nat}
    {value : Host → ObjectId → List Section → Value}
    (means : Means s.compiler t text offset value) (here : s.files[i]? = some t)
    (handlers : ∀ keys, env.KeepsTrust keys) (life : Engine.Life env {} s) :
    ∃ e t' c', s.compiler.compile t text offset = (.ok e, t', c') ∧
      ∀ later args, Engine.Life env { s with
          compiler := c', files := s.files.set i t', expressions := e :: s.expressions } later →
        later.machine.context.callDepth < later.machine.context.maxCallDepth →
        ∃ m', e.tryEvaluate env args later.machine =
          .ok (value env.host later.machine.nextObject (later.machine.context.frames args)) m' ∧
          m'.context = later.machine.context := by
  obtain ⟨e, t', c', compiled, comes⟩ := means
  refine ⟨e, t', c', compiled, fun later args after room => comes env args later.machine room ?_⟩
  exact Engine.trusted handlers ((life.tail (.compile here compiled)).trans after) e
    (Engine.expressions_of_life after List.mem_cons_self)

/-! ## The text alone -/

/-- The letters of a lexeme are in the text. -/
theorem Signature.Laid.mem_text {lexemes : List (List Char)} {lexeme text : List Char} {d : Char}
    (laid : Laid lexemes text) (hl : lexeme ∈ lexemes) (hd : d ∈ lexeme) : d ∈ text := by
  induction laid with
  | nil => cases hl
  | separator _ _ ih => exact List.mem_cons_of_mem _ (ih hl)
  | lexeme _ ih =>
    rcases List.mem_cons.mp hl with rfl | hl
    · exact List.mem_append_left _ hd
    · exact List.mem_append_right _ (ih hl)

/-- A definition has an arrow. -/
theorem Signature.definition?_of_no_arrow {text : List Char} (none : '>' ∉ text) :
    definition? text = Option.none := by
  cases found : definition? text with
  | none => rfl
  | some d =>
    obtain ⟨lexemes, written, rfl, -, -, heads, laid⟩ := definition?_laid found
    have last : arrow d.discard ∈ lexemes := by
      cases heads <;> simp
    have inside : '>' ∈ written := laid.mem_text last (by cases d.discard <;> simp [arrow])
    exact absurd (List.mem_append_left _ inside) none

theorem firstRound?_of_no_arrow (t : Template) (offset : Nat) {lexeme : List Char}
    (none : '>' ∉ lexeme) :
    firstRound? (String.ofList lexeme) offset t.scope =
        some (.start t.scope {} offset (Cursor.start lexeme)) ∧
      bodyOf t.scope.extensions (String.ofList lexeme) = Cursor.start lexeme := by
  have plain : definitionOf? t.scope.extensions (String.ofList lexeme) = Option.none := by
    rw [definitionOf?_eq_none, String.toList_ofList]
    exact fun _ => Signature.definition?_of_no_arrow none
  rw [firstRound?, bodyOf, plain]
  simp only [String.toList_ofList, and_self]

theorem no_arrow_mention {lookup : Lookup} {marks name : List Char} (hm : Marks lookup marks)
    (hn : IsName name) (call : Bool) : '>' ∉ marks ++ spelling name call := by
  intro inside
  rcases List.mem_append.mp inside with mark | inside
  · exact absurd (hm.isMark _ mark) (by decide)
  · rcases List.mem_append.mp inside with part | rest
    · exact absurd (hn.part _ part) (by decide)
    · cases call <;> simp [opener, closing] at rest

theorem no_arrow_upward (levels : Nat) : '>' ∉ upward levels := by
  simp [upward, List.mem_flatten, List.mem_replicate]

end Meaning

/-! ## Backreach -/

section Backreach

variable {t : Template} {text : String} {offset : Nat} {r : Round Expression}
  {gap marks name : List Char} {lookup : Lookup}

/-- A name, alone or behind the arrow of a definition, means the member in the frames it selects. -/
theorem means_mention (c : Compiler) (call : Bool)
    (started : firstRound? text offset t.scope = some r) (filler : Gap .operand false gap)
    (hn : IsName name) (plain : String.ofList name ∉ Signature.keywords) (hm : Marks lookup marks)
    (body : (bodyOf t.scope.extensions text).rest = gap ++ (marks ++ spelling name call))
    (unbound : lookup = .unstated → r.bench.Unbound (String.ofList name) call) :
    Means c t text offset fun h next frames =>
      lookup.valueIn (·.member? h (mentioned name call) next) frames := by
  obtain ⟨o, b, ran, ident, node, known⟩ := run_mention started filler hm hn plain body unbound
  exact means_of_mention c started ran node known

/-- A path, alone or behind the arrow of a definition, means the value of a frame. -/
theorem means_upward (c : Compiler) (started : firstRound? text offset t.scope = some r)
    (filler : Gap .operand false gap) (more : Nat)
    (body : (bodyOf t.scope.extensions text).rest = gap ++ upward more) :
    Means c t text offset fun _ _ frames => (frames[more + 1]?.map Section.value).getD .null := by
  obtain ⟨o, b, ran, node⟩ := run_upward started filler more body
  exact means_of_path c started ran node

/-- **Names reach the frames that their marks select.** A name compiles, by itself or with an empty
argument list. Behind marks it means the member of the frame that many levels up, or of the
outermost one, and of no other, whatever locals, bindings and named expressions there are; a bare
name that is none of these means the member of the first frame that has it; null is what is missing.
A path means the value of its frame. It makes no difference whether the text is alone or the body of
a definition. A member that fails is there, and so is an entry of a map that holds null. -/
theorem names_reach_frames (c : Compiler) (t : Template) (offset : Nat) :
    (∀ name call lookup marks, IsName name → String.ofList name ∉ Signature.keywords →
      Marks lookup marks →
      (lookup = .unstated →
        ({ scope := t.scope, tables := {} } : Bench Expression).Unbound (String.ofList name) call) →
      Means c t (String.ofList (marks ++ spelling name call)) offset fun h next frames =>
        lookup.valueIn (·.member? h (mentioned name call) next) frames) ∧
    (∀ more, Means c t (String.ofList (upward more)) offset fun _ _ frames =>
      (frames[more + 1]?.map Section.value).getD .null) ∧
    (∀ text r gap, firstRound? text offset t.scope = some r → Gap .operand false gap →
      (∀ name call lookup marks, IsName name → String.ofList name ∉ Signature.keywords →
        Marks lookup marks →
        (bodyOf t.scope.extensions text).rest = gap ++ (marks ++ spelling name call) →
        (lookup = .unstated → r.bench.Unbound (String.ofList name) call) →
        Means c t text offset fun h next frames =>
          lookup.valueIn (·.member? h (mentioned name call) next) frames) ∧
      ∀ more, (bodyOf t.scope.extensions text).rest = gap ++ upward more →
        Means c t text offset fun _ _ frames => (frames[more + 1]?.map Section.value).getD .null) ∧
    (∀ h key next v r, Resolver.find? h key v 0 = some r → r.Fails h v next →
      v.member? h key next = some .null) ∧
    ∀ h name next entries,
      (Value.map entries).member? h (.property name) next = Value.find? entries (.str name) := by
  refine ⟨fun name call lookup marks hn plain hm unbound => ?_, fun more => ?_,
    fun text r gap started filler =>
      ⟨fun name call lookup marks hn plain hm => means_mention c call started filler hn plain hm,
        fun more => means_upward c started filler more⟩,
    fun h key next v r => Value.member?_of_fails, Value.member?_map⟩
  · obtain ⟨started, body⟩ := firstRound?_of_no_arrow t offset (no_arrow_mention hm hn call)
    exact means_mention c call started .nil hn plain hm (by rw [body]; rfl) unbound
  · obtain ⟨started, body⟩ := firstRound?_of_no_arrow t offset (no_arrow_upward more)
    exact means_upward c started .nil more (by rw [body]; rfl)

/-- One frame up there is a level, and in the innermost frame there is none. -/
theorem names_reach_frames_above :
    ∃ e t' c', Compiler.compile {} (.fresh) "../level" 0 = (.ok e, t', c') ∧
      ∃ m', e.tryEvaluate {} [] { context :=
        (Context.fresh (.map [(.str "level", .int 1)])).pushSection { value := .map [] } } =
          .ok (.int 1) m' := by
  obtain ⟨e, t', c', compiled, value⟩ := (names_reach_frames {} .fresh 0).1 "level".toList false
    (.backreach 1) "../".toList ⟨by decide, by decide⟩ (by decide) (.up 0) nofun
  refine ⟨e, t', c', compiled, ?_⟩
  obtain ⟨m', ran, -⟩ := value {} [] { context :=
    (Context.fresh (.map [(.str "level", .int 1)])).pushSection { value := .map [] } } (by decide)
    fun ref _ => ref.trusted_of_fresh _ (by simp)
  exact ⟨m', ran⟩

end Backreach

end TagExpr
