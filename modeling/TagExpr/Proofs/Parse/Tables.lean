import TagExpr.Proofs.Parse.Whole

/-!
# Positions in a parsed tree

Every position in a parsed tree lies in the table it refers to: members and named expressions in the
tables of the expression, local slots below their number, binding slots below those that the
template has after the parse. So what runs a compiled expression finds whatever it looks up.
-/

namespace TagExpr

open Parse

/-! ## Trees within tables -/

/-- The tables to which the positions in a tree refer. -/
structure Limits where
  identifiers : List IdentKey
  /-- The number of named expressions. -/
  expressions : Nat
  /-- The number of local slots. -/
  locals : Nat
  /-- The number of binding slots of each template. -/
  bindings : TemplateId → Nat
  /-- The tree is the body of a named expression. -/
  recursive : Bool

namespace Node

mutual

/-- Every position in the tree lies in the table it refers to. A property is listed without an
arity, a method with the number of its arguments. -/
def Within (l : Limits) : Node → Prop
  | .literal _ | .regex _ | .current _ | .internal _ _ => True
  | .localVar slot => slot < l.locals
  | .binding template slot => slot < l.bindings template
  | .identifier ident _ => ∃ name, l.identifiers[ident]? = some (.property name)
  | .call ident _ args =>
    (∃ name, l.identifiers[ident]? = some (.method name args.length)) ∧ WithinList l args
  | .member receiver ident _ =>
    Within l receiver ∧ ∃ name, l.identifiers[ident]? = some (.property name)
  | .method receiver ident args _ =>
    Within l receiver ∧ (∃ name, l.identifiers[ident]? = some (.method name args.length)) ∧
      WithinList l args
  | .index receiver key _ => Within l receiver ∧ Within l key
  | .named target args => target < l.expressions ∧ WithinList l args
  | .recurse args => l.recursive ∧ WithinList l args
  | .annotated _ args => WithinList l args
  | .unary _ operand => Within l operand
  | .binary _ left right => Within l left ∧ Within l right
  | .ternary condition yes no => Within l condition ∧ Within l yes ∧ Within l no
  | .concat items | .list items | .set items | .sequence items => WithinList l items
  | .map entries => WithinEntries l entries
  | .assignLocal slot value => slot < l.locals ∧ Within l value
  | .assignBinding template slot value => slot < l.bindings template ∧ Within l value
  | .stream _ source target body =>
    Within l source ∧ (∀ slot ∈ target, slot < l.locals) ∧ Within l body
termination_by structural n => n

/-- Some trees lie within the tables. -/
def WithinList (l : Limits) : List Node → Prop
  | [] => True
  | n :: rest => Within l n ∧ WithinList l rest

/-- The entries of a map literal lie within the tables. -/
def WithinEntries (l : Limits) : List (Node × Node) → Prop
  | [] => True
  | e :: rest => WithinEntry l e ∧ WithinEntries l rest

/-- An entry lies within the tables. -/
def WithinEntry (l : Limits) : Node × Node → Prop
  | (key, value) => Within l key ∧ Within l value

end

theorem withinList_iff {l : Limits} {ns : List Node} :
    WithinList l ns ↔ ∀ n ∈ ns, n.Within l := by
  induction ns with
  | nil => simp [WithinList]
  | cons n ns ih => simp [WithinList, ih]

theorem withinEntries_iff {l : Limits} {es : List (Node × Node)} :
    WithinEntries l es ↔ ∀ e ∈ es, e.1.Within l ∧ e.2.Within l := by
  induction es with
  | nil => simp [WithinEntries]
  | cons e es ih =>
    obtain ⟨key, value⟩ := e
    simp [WithinEntries, WithinEntry, ih]

end Node

namespace Parse

variable {N : Names} {o : Operand} {os : List Operand} {w : List Word}

/-- The tables that `N` lists. -/
def Names.limits (N : Names) : Limits where
  identifiers := N.identifiers
  expressions := N.expressions.length
  locals := N.slots.length
  bindings := fun id => (N.bindings id).length
  recursive := N.defining.isSome

/-- Both trees of a fragment lie within the tables. -/
def Operand.Within (l : Limits) (o : Operand) : Prop :=
  o.node.Within l ∧ ∀ value ∈ o.pairValue, value.Within l

theorem lt_of_getElem? {α : Type} {l : List α} {i : Nat} {a : α} (h : l[i]? = some a) :
    i < l.length :=
  (List.getElem?_eq_some_iff.mp h).1

theorem withinList_map {l : Limits} (h : ∀ o ∈ os, o.Within l) :
    Node.WithinList l (os.map (·.node)) := by
  rw [Node.withinList_iff]
  intro n hn
  obtain ⟨o, ho, rfl⟩ := List.mem_map.mp hn
  exact (h o ho).1

theorem Callee.within {name : String} {args : List Node} {node : Node}
    (h : Callee N name args node) (ha : Node.WithinList N.limits args) : node.Within N.limits := by
  cases h with
  | named _ ht => exact ⟨lt_of_getElem? ht, ha⟩
  | recurse _ hd => exact ⟨by simp [Names.limits, hd], ha⟩

theorem Simple.within {word : Word} (h : Simple N o word) : o.Within N.limits := by
  have one {node : Node} (hn : o.node = node) (hp : o.pairValue = none)
      (hw : node.Within N.limits) : o.Within N.limits :=
    ⟨by rw [hn]; exact hw, by simp [hp]⟩
  cases h with
  | literal | regex | current | internal => exact one rfl rfl trivial
  | emptyMap => exact one rfl rfl trivial
  | annotated => exact one rfl rfl trivial
  | property _ _ hi => exact one rfl rfl ⟨_, hi⟩
  | bare _ hb =>
    cases hb with
    | localVar hs => exact one rfl rfl (lt_of_getElem? hs)
    | binding hs => exact one rfl rfl (lt_of_getElem? hs)
    | named hc => exact one rfl rfl (hc.within trivial)
    | property _ hi => exact one rfl rfl ⟨_, hi⟩

/-! ## Operators and containers -/

theorem Target.within {target : Operand} {extra : Extra} (h : Target N target extra)
    (ht : target.Within N.limits) :
    (∀ slot, extra = .assignLocal slot → slot < N.slots.length) ∧
      ∀ template slot, extra = .assignBinding template slot →
        slot < (N.bindings template).length := by
  have hn := ht.1
  cases h with
  | localVar hnode =>
    rw [hnode] at hn
    exact ⟨fun _ he => by cases he; exact hn, fun _ _ he => by cases he⟩
  | declared _ hs =>
    exact ⟨fun _ he => by cases he; exact lt_of_getElem? hs, fun _ _ he => by cases he⟩
  | binding hnode =>
    rw [hnode] at hn
    exact ⟨fun _ he => (by cases he), fun _ _ he => by cases he; exact hn⟩
  | bound _ hs =>
    exact ⟨fun _ he => (by cases he), fun _ _ he => by cases he; exact lt_of_getElem? hs⟩

theorem joinSequence_within {l : Limits} {left right : Node} (hl : left.Within l)
    (hr : right.Within l) : (joinSequence left right).Within l := by
  unfold joinSequence
  split
  case h_1 items =>
    have hitems : ∀ n ∈ items, n.Within l := Node.withinList_iff.mp hl
    refine Node.withinList_iff.mpr ?_
    intro n hn
    rcases List.mem_append.mp hn with hn | hn
    · exact hitems n hn
    · rw [List.mem_singleton.mp hn]
      exact hr
  case h_2 => exact ⟨hl, hr, trivial⟩

theorem Built.within {p : Pending} {args : List Operand} (h : Built N p args o)
    (ha : ∀ arg ∈ args, arg.Within N.limits) : o.Within N.limits := by
  cases h with
  | sign => exact ⟨trivial, by simp [Operand.literal]⟩
  | @unary op x => exact ⟨(ha x (by simp)).1, by simp⟩
  | @binary op left right => exact ⟨⟨(ha left (by simp)).1, (ha right (by simp)).1⟩, by simp⟩
  | @ternary condition yes no =>
    exact ⟨⟨(ha condition (by simp)).1, (ha yes (by simp)).1, (ha no (by simp)).1⟩, by simp⟩
  | @pair key value =>
    refine ⟨(ha key (by simp)).1, ?_⟩
    intro n hn
    cases hn
    exact (ha value (by simp)).1
  | @assignLocal slot target value he ht =>
    exact ⟨⟨(ht.within (ha target (by simp))).1 slot he, (ha value (by simp)).1⟩, by simp⟩
  | @assignBinding template slot target value he ht =>
    exact ⟨⟨(ht.within (ha target (by simp))).2 template slot he, (ha value (by simp)).1⟩, by simp⟩
  | @stream op binding mark source body _ _ hs =>
    exact ⟨⟨(ha source (by simp)).1, hs, (ha body (by simp)).1⟩, by simp⟩
  | @sequence left right =>
    exact ⟨joinSequence_within (ha left (by simp)).1 (ha right (by simp)).1, by simp⟩

theorem collection?_within {l : Limits} {kind : OpKind} {elements : List Operand} {node : Node}
    (h : collection? kind elements = some node) (he : ∀ e ∈ elements, e.Within l) :
    node.Within l := by
  unfold collection? at h
  split at h
  case isTrue =>
    cases h
    split
    case isTrue => exact withinList_map he
    case isFalse => exact withinList_map he
  case isFalse =>
    split at h
    case isFalse => cases h
    case isTrue =>
      cases h
      refine Node.withinEntries_iff.mpr ?_
      intro entry hentry
      obtain ⟨e, hmem, hvalue⟩ := List.mem_filterMap.mp hentry
      obtain ⟨value, hv, rfl⟩ := Option.map_eq_some_iff.mp hvalue
      exact ⟨(he e hmem).1, (he e hmem).2 value hv⟩

theorem Closed.within {p : Pending} {close : Span} {receivers elements : List Operand}
    (h : Closed N p close receivers elements o) (hr : ∀ r ∈ receivers, r.Within N.limits)
    (he : ∀ e ∈ elements, e.Within N.limits) : o.Within N.limits := by
  have object {node : Node} {span : Span} (hn : node.Within N.limits) :
      (Operand.object node span).Within N.limits := ⟨hn, by simp [Operand.object]⟩
  have args := withinList_map he
  cases h with
  | @group element => exact ⟨(he element (by simp)).1, by simp⟩
  | collection _ hc => exact object (collection?_within hc he)
  | @lookup safe receiver key => exact object ⟨(hr receiver (by simp)).1, (he key (by simp)).1⟩
  | named _ _ hc => exact object (hc.within args)
  | @call name lookup _ ident _ _ _ hi =>
    exact object ⟨⟨name, by simpa [Names.limits] using hi⟩, args⟩
  | @method name safe receiver _ ident _ _ hi =>
    exact object ⟨(hr receiver (by simp)).1, ⟨name, by simpa [Names.limits] using hi⟩, args⟩
  | annotated => exact object args

/-- Whatever is derived lies within the tables. -/
theorem Derives.within (h : Derives N os w) : ∀ o ∈ os, o.Within N.limits := by
  induction h with
  | nil => simp
  | cons _ _ iho ihos =>
    intro o' ho'
    rcases List.mem_cons.mp ho' with rfl | ho'
    · exact iho _ (by simp)
    · exact ihos _ ho'
  | word hs => exact List.forall_mem_singleton.mpr hs.within
  | concat span _ _ _ ih => exact List.forall_mem_singleton.mpr ⟨withinList_map ih, by simp⟩
  | @member receiver _ ident name safe span _ _ hi ih =>
    refine List.forall_mem_singleton.mpr ⟨⟨(ih receiver (by simp)).1, name, hi⟩, ?_⟩
    simp [Operand.object]
  | built _ _ hb ih => exact List.forall_mem_singleton.mpr (hb.within ih)
  | closed _ _ _ hc ihr ihe => exact List.forall_mem_singleton.mpr (hc.within ihr ihe)

end Parse

/-! ## Parsed expressions -/

/-- The tables of a parsed expression, and the slots of the bindings in the scope it leaves behind.
-/
def Parsed.limits {ε : Type} (p : Parsed ε) (scope : TemplateScope ε) : Limits where
  identifiers := p.identifiers
  expressions := p.expressions.length
  locals := p.localCount
  bindings := scope.bindingCount
  recursive := p.name.isSome

theorem Parse.Lists.limits {ε : Type} {N : Names} {p : Parsed ε} {scope : TemplateScope ε}
    (h : Lists N p scope) : N.limits = p.limits scope := by
  simp only [Names.limits, Parsed.limits, h.identifiers, h.expressions, h.slots, h.bindings,
    h.defining, Limits.mk.injEq, true_and, and_true]
  rfl

theorem Parsed.within {ε : Type} {text : String} {offset : Nat} {scope scope' : TemplateScope ε}
    {p : Parsed ε} (h : parse text offset scope = (.ok p, scope')) :
    p.node.Within (p.limits scope') ∧ p.identifiers.Nodup ∧ p.params ≤ p.localCount := by
  obtain ⟨N, o, hl, -, hnode, -, -, -, hd⟩ := parse_derives h
  refine ⟨?_, hl.nodup, hl.params⟩
  rw [← hl.limits, ← hnode]
  exact (hd.within o (by simp)).1

/-- A parsed expression calls only expressions that are finished. -/
theorem Parsed.expression?_of_mem {ε : Type} {text : String} {offset : Nat}
    {scope scope' : TemplateScope ε} {p : Parsed ε} (h : parse text offset scope = (.ok p, scope'))
    {e : ε} (he : e ∈ p.expressions) : ∃ name, scope'.expression? name = some e := by
  obtain ⟨N, o, hl, -⟩ := parse_derives h
  obtain ⟨target, ht, rfl⟩ := List.mem_iff_getElem.mp he
  have hlt : target < N.expressions.length := by
    rw [hl.expressions]
    exact ht
  obtain ⟨found, hfound, hdefined⟩ := hl.defined target _ (List.getElem?_eq_getElem hlt)
  have heq : p.expressions[target] = found := by
    simpa [List.getElem?_eq_getElem ht] using hfound
  exact ⟨_, by rw [TemplateScope.expression?, hdefined, heq]⟩

end TagExpr
