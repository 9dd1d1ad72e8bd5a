import TagExpr.Proofs.Parse.Whole
import TagExpr.Value.Operation

/-!
# Static types of trees

The parser keeps a type with every fragment and looks at the types of its operands when it applies
an operator. The type is a function of the tree (`Node.staticType`), so what a parse has checked can
be read off the tree it comes to: every operator in it accepts the types of its operands. Every tree
in a derived fragment is that of a derived fragment itself (`Derives.made`), so for this it is
enough to look at what stands on top.

A static type tells which values a tree can have (`Node.Admits`), and the operators keep to it. It
says nothing about null, which any operand may turn out to be. Beside that there is one
gap: a sum is held to be floating as soon as one side is, but if the other side turns out to be a
text, it joins texts. The value of a tree is such a text only if it is the tree's own sum, or comes
up from one through operators that hand a text on (`Node.MayJoin`).
-/

namespace TagExpr

open Parse

/-! ## Types of trees -/

namespace Node

mutual

/-- What is known about the value of a tree before it runs. -/
def staticType : Node → OperandType
  | .literal value => value.operandType
  | .internal _ name => name.operandType
  | .unary op _ => op.resultType
  | .binary op left right => op.resultType (staticType left) (staticType right)
  | .ternary _ yes no => eitherType (staticType yes) (staticType no)
  | .concat _ => .string
  | .assignLocal _ value | .assignBinding _ _ value => staticType value
  | .sequence items => typeOfLast .object items
  | .stream op _ _ body => op.resultType (staticType body)
  | .regex _ | .current _ | .localVar _ | .binding _ _ | .identifier _ _ | .call _ _ _
  | .member _ _ _ | .method _ _ _ _ | .index _ _ _ | .named _ _ | .recurse _ | .annotated _ _
  | .list _ | .set _ | .map _ => .object
termination_by structural n => n

/-- The type of the last tree; `last` if there is none. -/
def typeOfLast (last : OperandType) : List Node → OperandType
  | [] => last
  | n :: rest => typeOfLast (staticType n) rest

end

theorem typeOfLast_append (last : OperandType) (items : List Node) (n : Node) :
    typeOfLast last (items ++ [n]) = n.staticType := by
  induction items generalizing last with
  | nil => rfl
  | cons item items ih => exact ih item.staticType

theorem staticType_joinSequence (left right : Node) :
    (joinSequence left right).staticType = right.staticType := by
  unfold joinSequence
  split
  · exact typeOfLast_append .object _ right
  · rfl

/-! ## Checked trees -/

/-- The trees right below the top of a tree. -/
def children : Node → List Node
  | .literal _ | .regex _ | .current _ | .internal _ _ | .localVar _ | .binding _ _
  | .identifier _ _ => []
  | .call _ _ args | .named _ args | .recurse args | .annotated _ args => args
  | .member receiver _ _ => [receiver]
  | .method receiver _ args _ => receiver :: args
  | .index receiver key _ => [receiver, key]
  | .unary _ operand => [operand]
  | .binary _ left right => [left, right]
  | .ternary condition yes no => [condition, yes, no]
  | .concat items | .list items | .set items | .sequence items => items
  | .map entries => entries.flatMap fun entry => [entry.1, entry.2]
  | .assignLocal _ value | .assignBinding _ _ value => [value]
  | .stream _ source _ body => [source, body]

/-- The first tree is the second one or stands somewhere in it. -/
inductive Part : Node → Node → Prop
  | self (n : Node) : Part n n
  | within {n child root : Node} : child ∈ root.children → Part n child → Part n root

theorem Part.trans {n inner root : Node} (h : n.Part inner) (h' : inner.Part root) :
    n.Part root := by
  induction h' with
  | self => exact h
  | within hc _ ih => exact .within hc ih

/-- What is below what was joined with a semicolon. -/
theorem part_of_mem_joinSequence {left right child : Node}
    (hc : child ∈ (joinSequence left right).children) : child.Part left ∨ child.Part right := by
  unfold joinSequence at hc
  split at hc
  case h_1 items =>
    rcases List.mem_append.mp hc with hc | hc
    · exact .inl (.within hc (.self child))
    · rw [List.mem_singleton.mp hc]
      exact .inr (.self right)
  case h_2 =>
    rcases List.mem_cons.mp hc with rfl | hc
    · exact .inl (.self _)
    · rw [List.mem_singleton.mp hc]
      exact .inr (.self right)

/-- An operator on top of the tree accepts the static types of its operands. -/
def Accepted : Node → Prop
  | .unary op operand => op.accepts operand.staticType
  | .binary op left right => op.accepts left.staticType right.staticType
  | _ => True

/-- Every operator in the tree accepts the static types of its operands. -/
def Checked (root : Node) : Prop := ∀ n : Node, n.Part root → n.Accepted

theorem accepted_joinSequence (left right : Node) : (joinSequence left right).Accepted := by
  unfold joinSequence
  split <;> trivial

end Node

/-- What a sign makes of a number has the type of the number. -/
theorem operandType_of_foldSign? {op : UnaryOp} {n : Node} {value : Literal}
    (h : foldSign? op n = some value) : value.operandType = n.staticType := by
  unfold foldSign? at h
  split at h
  case h_3 =>
    split at h <;> cases h
    rfl
  case h_5 => cases h
  all_goals
    cases h
    rfl

/-! ## The parts of derived fragments -/

namespace Parse

variable {N : Names} {o : Operand} {os : List Operand} {w : List Word}

/-- The tree is that of a derived fragment, which is no entry of a map literal. -/
def Made (N : Names) (n : Node) : Prop := ∃ o w, Derives N [o] w ∧ ¬ o.isPair ∧ o.node = n

/-- The tree is in the fragment, or in the value of an entry. -/
def Operand.Has (o : Operand) (n : Node) : Prop :=
  n.Part o.node ∨ ∃ value ∈ o.pairValue, n.Part value

theorem Bare.children {name : String} {node : Node} (h : Bare N name node) :
    node.children = [] := by
  cases h with
  | named hc => cases hc <;> rfl
  | localVar | binding | property => rfl

theorem Simple.children {word : Word} (h : Simple N o word) : o.node.children = [] := by
  cases h with
  | bare _ hb => exact hb.children
  | _ => rfl

/-- An operator makes its fragment on top of its operands. -/
theorem Built.below {p : Pending} {args : List Operand} (h : Built N p args o)
    (plain : o.pairValue = none) {child : Node} (hc : child ∈ o.node.children) :
    ∃ arg ∈ args, child.Part arg.node := by
  have operand (own : child ∈ args.map (·.node)) : ∃ arg ∈ args, child.Part arg.node := by
    obtain ⟨arg, member, rfl⟩ := List.mem_map.mp own
    exact ⟨arg, member, .self _⟩
  cases h with
  | sign => cases hc
  | pair => cases plain
  | unary | binary | ternary | stream => exact operand hc
  | assignLocal | assignBinding => exact operand (List.mem_cons_of_mem _ hc)
  | @sequence left right =>
    rcases Node.part_of_mem_joinSequence hc with part | part
    · exact ⟨left, by simp, part⟩
    · exact ⟨right, by simp, part⟩

theorem collection?_below {kind : OpKind} {elements : List Operand} {node child : Node}
    (h : collection? kind elements = some node) (hc : child ∈ node.children) :
    ∃ e ∈ elements, e.Has child := by
  unfold collection? at h
  split at h
  case isTrue =>
    cases h
    have own : child ∈ elements.map (·.node) := by split at hc <;> exact hc
    obtain ⟨e, member, rfl⟩ := List.mem_map.mp own
    exact ⟨e, member, .inl (.self _)⟩
  case isFalse =>
    split at h
    case isFalse => cases h
    case isTrue =>
      cases h
      obtain ⟨entry, hentry, hc⟩ := List.mem_flatMap.mp hc
      obtain ⟨e, member, hvalue⟩ := List.mem_filterMap.mp hentry
      obtain ⟨value, hv, rfl⟩ := Option.map_eq_some_iff.mp hvalue
      rcases List.mem_cons.mp hc with rfl | hc
      · exact ⟨e, member, .inl (.self _)⟩
      · rw [List.mem_singleton.mp hc]
        exact ⟨e, member, .inr ⟨value, hv, .self value⟩⟩

/-- A closer makes its fragment on top of the elements and of the operand before the container. -/
theorem Closed.below {p : Pending} {close : Span} {receivers elements : List Operand}
    (h : Closed N p close receivers elements o) {child : Node} (hc : child ∈ o.node.children) :
    ∃ part ∈ receivers ++ elements, part.Has child := by
  have element (own : child ∈ elements.map (·.node)) :
      ∃ part ∈ receivers ++ elements, part.Has child := by
    obtain ⟨e, member, rfl⟩ := List.mem_map.mp own
    exact ⟨e, List.mem_append_right _ member, .inl (.self _)⟩
  cases h with
  | @group e => exact ⟨e, by simp, .inl (.within hc (.self child))⟩
  | collection _ made =>
    obtain ⟨e, member, has⟩ := collection?_below made hc
    exact ⟨e, by simpa using member, has⟩
  | @lookup safe receiver key =>
    rcases List.mem_cons.mp hc with rfl | hc
    · exact ⟨receiver, by simp, .inl (.self _)⟩
    · rw [List.mem_singleton.mp hc]
      exact ⟨key, by simp, .inl (.self _)⟩
  | named _ _ callee => cases callee <;> exact element hc
  | call | annotated => exact element hc
  | @method name safe receiver =>
    rcases List.mem_cons.mp hc with rfl | hc
    · exact ⟨receiver, by simp, .inl (.self _)⟩
    · exact element hc

theorem Operand.Has.part {n m : Node} (h : o.Has m) (part : n.Part m) : o.Has n := by
  rcases h with h | ⟨value, hv, h⟩
  · exact .inl (part.trans h)
  · exact .inr ⟨value, hv, part.trans h⟩

/-- On top of a derived fragment is what is made last, and below is what its operands have. -/
theorem made_of_has (h : Derives N [o] w) (plain : o.pairValue = none)
    (below : ∀ child ∈ o.node.children, ∀ n : Node, n.Part child → Made N n) {n : Node}
    (has : o.Has n) : Made N n := by
  rcases has with part | ⟨value, hv, -⟩
  · cases part with
    | self =>
      have pair := h.isSome_pairValue o List.mem_cons_self
      rw [plain] at pair
      exact ⟨o, w, h, Bool.eq_false_iff.1 pair.symm, rfl⟩
    | within hc part => exact below _ hc n part
  · rw [plain] at hv
    cases hv

/-- **Every tree in a derived fragment is made as the whole one is.** -/
theorem Derives.made (h : Derives N os w) : ∀ o ∈ os, ∀ n, o.Has n → Made N n := by
  induction h with
  | nil => exact List.forall_mem_nil _
  | cons _ _ iho ihos => exact List.forall_mem_cons.2 ⟨iho _ List.mem_cons_self, ihos⟩
  | word hs =>
    refine List.forall_mem_singleton.2 fun n => made_of_has (.word hs) ?_ ?_
    · cases hs <;> rfl
    · rw [hs.children]
      exact List.forall_mem_nil _
  | concat span he hd hp ih =>
    refine List.forall_mem_singleton.2 fun n => made_of_has (.concat span he hd hp) rfl ?_
    intro child hc m part
    obtain ⟨arg, member, rfl⟩ := List.mem_map.mp hc
    exact ih arg member m (.inl part)
  | member safe span hd hp hi ih =>
    refine List.forall_mem_singleton.2 fun n => made_of_has (.member safe span hd hp hi) rfl ?_
    intro child hc m part
    rw [List.mem_singleton.mp hc] at part
    exact ih _ List.mem_cons_self m (.inl part)
  | @built p args o _ hd hp hb ih =>
    refine List.forall_mem_singleton.2 fun n has => ?_
    cases second : o.pairValue with
    | none =>
      refine made_of_has (.built hd hp hb) second (fun child hc m part => ?_) has
      obtain ⟨arg, member, within⟩ := hb.below second hc
      exact ih arg member m (.inl (part.trans within))
    | some =>
      -- Only a colon makes an entry, of a key and a value.
      cases hb with
      | @pair key value =>
        rcases has with part | ⟨_, ⟨⟩, part⟩
        · exact ih key (by simp) n (.inl part)
        · exact ih value (by simp) n (.inl part)
      | _ => cases second
  | closed hr hp he hc ihr ihe =>
    refine List.forall_mem_singleton.2 fun n => made_of_has (.closed hr hp he hc) ?_ ?_
    · cases hc <;> rfl
    · intro child hchild m part
      obtain ⟨e, member, has⟩ := hc.below hchild
      rcases List.mem_append.mp member with member | member
      · exact ihr e member m (has.part part)
      · exact ihe e member m (has.part part)

/-! ## Static types of derived fragments -/

/-- A fragment that is a plain value has the type of its tree, and an operator on top of it accepts
its operands. -/
structure Operand.Typed (o : Operand) : Prop where
  type : ¬ o.isPair → o.type = o.node.staticType
  accepted : o.node.Accepted

theorem Callee.typed {name : String} {args : List Node} {node : Node}
    (h : Callee N name args node) : node.staticType = .object ∧ node.Accepted := by
  cases h with
  | named | recurse => exact ⟨rfl, trivial⟩

theorem Bare.typed {name : String} {node : Node} (h : Bare N name node) :
    node.staticType = .object ∧ node.Accepted := by
  cases h with
  | named hc => exact hc.typed
  | localVar | binding | property => exact ⟨rfl, trivial⟩

theorem Simple.typed {word : Word} (h : Simple N o word) : o.Typed := by
  cases h with
  | bare span hb => exact ⟨fun _ => hb.typed.1.symm, hb.typed.2⟩
  | _ => exact ⟨fun _ => rfl, trivial⟩

theorem Built.typed {p : Pending} {args : List Operand} (h : Built N p args o)
    (ha : ∀ arg ∈ args, arg.Typed) (hp : ∀ arg ∈ args, ¬ arg.isPair) : o.Typed := by
  have type (arg : Operand) (harg : arg ∈ args) : arg.type = arg.node.staticType :=
    (ha arg harg).type (hp arg harg)
  cases h with
  | @sign op x value _ _ hf =>
    refine ⟨fun _ => ?_, trivial⟩
    show x.type = value.operandType
    rw [type x (by simp), operandType_of_foldSign? hf]
  | @unary op x _ accepts =>
    rw [type x (by simp)] at accepts
    exact ⟨fun _ => rfl, accepts⟩
  | @binary op left right _ accepts =>
    rw [type left (by simp), type right (by simp)] at accepts
    refine ⟨fun _ => ?_, accepts⟩
    show op.resultType left.type right.type = op.resultType _ _
    rw [type left (by simp), type right (by simp)]
  | @ternary condition yes no =>
    refine ⟨fun _ => ?_, trivial⟩
    show eitherType yes.type no.type = eitherType _ _
    rw [type yes (by simp), type no (by simp)]
  | @pair key value => exact ⟨fun plain => absurd rfl plain, (ha key (by simp)).accepted⟩
  | @assignLocal slot target value | @assignBinding template slot target value =>
    exact ⟨fun _ => type value (by simp), trivial⟩
  | @stream op binding mark source body =>
    refine ⟨fun _ => ?_, trivial⟩
    show op.resultType body.type = op.resultType _
    rw [type body (by simp)]
  | @sequence left right =>
    refine ⟨fun _ => ?_, Node.accepted_joinSequence _ _⟩
    exact (type right (by simp)).trans (Node.staticType_joinSequence _ _).symm

theorem collection?_typed {kind : OpKind} {elements : List Operand} {node : Node}
    (h : collection? kind elements = some node) : node.staticType = .object ∧ node.Accepted := by
  unfold collection? at h
  split at h
  case isTrue =>
    cases h
    split <;> exact ⟨rfl, trivial⟩
  case isFalse =>
    split at h <;> cases h
    exact ⟨rfl, trivial⟩

theorem Closed.typed {p : Pending} {close : Span} {receivers elements : List Operand}
    (h : Closed N p close receivers elements o) (he : ∀ e ∈ elements, e.Typed) : o.Typed := by
  cases h with
  | @group element _ _ plain =>
    have typed := he element (by simp)
    exact ⟨fun _ => typed.type plain, typed.accepted⟩
  | collection _ hc => exact ⟨fun _ => (collection?_typed hc).1.symm, (collection?_typed hc).2⟩
  | named _ _ hc => exact ⟨fun _ => hc.typed.1.symm, hc.typed.2⟩
  | lookup | call | method | annotated => exact ⟨fun _ => rfl, trivial⟩

/-- Whatever is derived has the type of its tree, and the operator on top has been checked. -/
theorem Derives.typed (h : Derives N os w) : ∀ o ∈ os, o.Typed := by
  induction h with
  | nil => exact List.forall_mem_nil _
  | cons _ _ iho ihos => exact List.forall_mem_cons.2 ⟨iho _ List.mem_cons_self, ihos⟩
  | word hs => exact List.forall_mem_singleton.2 hs.typed
  | concat | member => exact List.forall_mem_singleton.2 ⟨fun _ => rfl, trivial⟩
  | built _ hp hb ih => exact List.forall_mem_singleton.2 (hb.typed ih hp)
  | closed _ _ _ hc _ ihe => exact List.forall_mem_singleton.2 (hc.typed ihe)

/-- Every tree in a derived fragment has been checked when it was made. -/
theorem Derives.checked (h : Derives N [o] w) : o.node.Checked := by
  intro n part
  obtain ⟨o', w', derived, -, rfl⟩ := h.made o List.mem_cons_self n (.inl part)
  exact (derived.typed o' List.mem_cons_self).accepted

end Parse

/-- The type of a parsed expression is that of its tree, in which every operator accepts the types
of its operands. -/
theorem Parsed.typed {ε : Type} {text : String} {offset : Nat} {scope scope' : TemplateScope ε}
    {p : Parsed ε} (h : parse text offset scope = (.ok p, scope')) :
    p.type = p.node.staticType ∧ p.node.Checked := by
  obtain ⟨N, o, -, -, hnode, htype, -, hpair, hd⟩ := parse_derives h
  rw [← hnode, ← htype]
  exact ⟨(hd.typed o List.mem_cons_self).type hpair, hd.checked⟩

end TagExpr

/-! ## Values of a static type -/

namespace TagExpr

/-! ## What a type says about a value -/

/-- The value is of the type. Every value is of the unknown type, and none is an entry. -/
def OperandType.admits : OperandType → Value → Bool
  | .boolean, .bool _ | .integral, .int _ | .floating, .double _ | .string, .str _ => true
  | .object, _ => true
  | _, _ => false

/-- The operators that make their value of a text among their operands, or answer one of them. -/
def BinaryOp.passesTexts : BinaryOp → Bool
  | add | coalesce | elvis | ifPresent | ifTruthy => true
  | _ => false

/-- The streaming operators that answer a value of their body. -/
def StreamOp.passesTexts : StreamOp → Bool
  | reduce | first => true
  | remap | flatRemap | filter => false

namespace Node

/-- The value of the tree may come from a sum of a floating and an unknown operand. -/
inductive MayJoin : Node → Prop
  | right {left right : Node} : left.staticType = .floating → right.staticType = .object →
      MayJoin (.binary .add left right)
  | left {left right : Node} : left.staticType = .object → right.staticType = .floating →
      MayJoin (.binary .add left right)
  | inLeft {op : BinaryOp} {left right : Node} : op.passesTexts → MayJoin left →
      MayJoin (.binary op left right)
  | inRight {op : BinaryOp} {left right : Node} : op.passesTexts → MayJoin right →
      MayJoin (.binary op left right)
  | yes {condition yes no : Node} : MayJoin yes → MayJoin (.ternary condition yes no)
  | no {condition yes no : Node} : MayJoin no → MayJoin (.ternary condition yes no)
  | assignLocal {value : Node} (slot : Nat) : MayJoin value → MayJoin (.assignLocal slot value)
  | assignBinding {value : Node} (template : TemplateId) (slot : Nat) : MayJoin value →
      MayJoin (.assignBinding template slot value)
  | last {n : Node} (items : List Node) : MayJoin n → MayJoin (.sequence (items ++ [n]))
  | body {op : StreamOp} {body : Node} (source : Node) (slot : Option Nat) : op.passesTexts →
      MayJoin body → MayJoin (.stream op source slot body)

/-- The tree is of floating type, and the value is a text that a sum has joined. -/
def Joined (n : Node) (v : Value) : Prop :=
  n.staticType = .floating ∧ n.MayJoin ∧ ∃ s, v = .str s

/-- The value of the tree can be this one: null, one of the static type, or a joined text. -/
def Admits (n : Node) (v : Value) : Prop :=
  v = .null ∨ n.staticType.admits v ∨ n.Joined v

variable {n m : Node} {v : Value}

theorem admits_null (n : Node) : n.Admits .null := .inl rfl

theorem admits_of_type (h : n.staticType.admits v) : n.Admits v := .inr (.inl h)

theorem admits_of_object (h : n.staticType = .object) (v : Value) : n.Admits v := by
  refine admits_of_type ?_
  rw [h]
  cases v <;> rfl

/-- A value that is handed on. -/
theorem Admits.pass (h : m.Admits v) (type : n.staticType = m.staticType ∨ n.staticType = .object)
    (joins : m.MayJoin → n.MayJoin) : n.Admits v := by
  rcases type with same | unknown
  · rcases h with null | typed | ⟨floating, join, text⟩
    · exact .inl null
    · exact admits_of_type (same ▸ typed)
    · exact .inr (.inr ⟨same.trans floating, joins join, text⟩)
  · exact admits_of_object unknown v

/-! What a value says about the type of its tree. -/

theorem Admits.int {a : Int64} (h : n.Admits (.int a)) :
    n.staticType = .integral ∨ n.staticType = .object := by
  rcases h with null | typed | ⟨-, -, s, text⟩
  · cases null
  · cases type : n.staticType <;> simp_all [OperandType.admits]
  · cases text

theorem Admits.double {d : Double} (h : n.Admits (.double d)) :
    n.staticType = .floating ∨ n.staticType = .object := by
  rcases h with null | typed | ⟨-, -, s, text⟩
  · cases null
  · cases type : n.staticType <;> simp_all [OperandType.admits]
  · cases text

theorem Admits.str {s : String} (h : n.Admits (.str s)) :
    n.staticType = .string ∨ n.staticType = .object ∨ n.staticType = .floating ∧ n.MayJoin := by
  rcases h with null | typed | ⟨floating, join, -⟩
  · cases null
  · cases type : n.staticType <;> simp_all [OperandType.admits]
  · exact .inr (.inr ⟨floating, join⟩)

end Node

/-! ## Operations -/

namespace Value

/-- Two numbers, not both integers. -/
def OneDouble (left right : Value) : Prop :=
  (∃ a b, left = double a ∧ right = double b) ∨ (∃ a b, left = double a ∧ right = int b) ∨
    ∃ a b, left = int a ∧ right = double b

theorem toDouble?_eq_some {v : Value} {d : Double} (h : v.toDouble? = some d) :
    (∃ a, v = int a) ∨ ∃ a, v = double a := by
  cases v with
  | int a => exact .inl ⟨a, rfl⟩
  | double a => exact .inr ⟨a, rfl⟩
  | _ => cases h

variable {op : BinaryOp} {left right v : Value}

/-- Of integers an operation makes an integer, of other numbers a double. -/
theorem arithmetic_eq_ok {operation : IntOperation} {onInts : Int → Int → Int}
    {onDoubles : Double → Double → Double}
    (h : arithmetic op operation onInts onDoubles left right = .ok v) :
    (∃ a b c, left = int a ∧ right = int b ∧ v = int c) ∨
      OneDouble left right ∧ ∃ d, v = double d := by
  unfold arithmetic at h
  split at h
  case h_1 a b =>
    unfold fitting at h
    split at h <;> cases h
    exact .inl ⟨a, b, _, rfl, rfl, rfl⟩
  case h_2 notInts =>
    split at h <;> cases h
    case h_1 a b ha hb =>
      refine .inr ⟨?_, _, rfl⟩
      rcases toDouble?_eq_some ha with ⟨a, rfl⟩ | ⟨a, rfl⟩ <;>
        rcases toDouble?_eq_some hb with ⟨b, rfl⟩ | ⟨b, rfl⟩
      · exact absurd rfl (notInts a b rfl)
      · exact .inr (.inr ⟨a, b, rfl, rfl⟩)
      · exact .inr (.inl ⟨a, b, rfl, rfl⟩)
      · exact .inl ⟨a, b, rfl, rfl⟩

theorem floating_eq_ok {onDoubles : Double → Double → Double}
    (h : floating op onDoubles left right = .ok v) : ∃ d, v = double d := by
  unfold floating at h
  split at h <;> cases h
  exact ⟨_, rfl⟩

theorem integral_eq_ok {f : Int64 → Int64 → Value} (h : integral op f left right = .ok v) :
    ∃ a b, v = f a b := by
  unfold integral at h
  split at h <;> cases h
  exact ⟨_, _, rfl⟩

theorem ordered_eq_ok {accept : Ordering → Bool} (h : ordered accept left right = .ok v) :
    ∃ b, v = bool b := by
  unfold ordered at h
  split at h <;> cases h
  exact ⟨_, rfl⟩

theorem threeWay_eq_ok (h : threeWay left right = .ok v) : ∃ n, v = int n := by
  unfold threeWay at h
  split at h
  case h_4 =>
    split at h <;> cases h
    exact ⟨_, rfl⟩
  all_goals
    cases h
    exact ⟨_, rfl⟩

theorem patternMatch_eq_ok {host : Host} (h : patternMatch host op left right = .ok v) :
    ∃ b, v = bool b := by
  unfold patternMatch at h
  cases pattern : patternOf op left right with
  | error fault =>
    rw [pattern] at h
    cases h
  | ok found =>
    rw [pattern] at h
    change (if left.isNull then _ else _) = _ at h
    split at h
    · cases h
      exact ⟨_, rfl⟩
    · split at h <;> cases h
      exact ⟨_, rfl⟩

/-- A sum either joins texts or adds. -/
theorem plus_eq_ok {host : Host} (h : plus host left right = .ok v) :
    ((∃ s, left = str s) ∨ ∃ s, right = str s) ∧ (∃ s, v = str s) ∨
      arithmetic .add .addition (· + ·) Double.add left right = .ok v := by
  unfold plus at h
  split at h
  case h_1 s =>
    cases h
    exact .inl ⟨.inl ⟨s, rfl⟩, _, rfl⟩
  case h_2 s _ =>
    cases h
    exact .inl ⟨.inr ⟨s, rfl⟩, _, rfl⟩
  case h_3 => exact .inr h

end Value

namespace Node

variable {l r : Node} {op : BinaryOp} {left right v : Value}

/-- The type of a sum, difference or product is that of its value, unless texts are joined. -/
theorem admits_arithmetic {operation : IntOperation} {onInts : Int → Int → Int}
    {onDoubles : Double → Double → Double} (hl : l.Admits left) (hr : r.Admits right)
    (h : Value.arithmetic op operation onInts onDoubles left right = .ok v) :
    (l.staticType.arithmetic r.staticType).admits v ∧ l.staticType ≠ .string ∧
      r.staticType ≠ .string := by
  rcases Value.arithmetic_eq_ok h with ⟨a, b, c, rfl, rfl, rfl⟩ | ⟨one, d, rfl⟩
  · rcases hl.int with tl | tl <;> rcases hr.int with tr | tr <;> simp [tl, tr] <;> rfl
  · rcases one with ⟨a, b, rfl, rfl⟩ | ⟨a, b, rfl, rfl⟩ | ⟨a, b, rfl, rfl⟩
    · rcases hl.double with tl | tl <;> rcases hr.double with tr | tr <;> simp [tl, tr] <;> rfl
    · rcases hl.double with tl | tl <;> rcases hr.int with tr | tr <;> simp [tl, tr] <;> rfl
    · rcases hl.int with tl | tl <;> rcases hr.double with tr | tr <;> simp [tl, tr] <;> rfl

/-- The static type of a sum that joins a text: known to be a text, unknown, or floating because
the other side is. -/
theorem joins_of_str {s : String} (h : l.Admits (.str s) ∨ r.Admits (.str s)) :
    (binary .add l r).staticType = .string ∨ (binary .add l r).staticType = .object ∨
      (binary .add l r).staticType = .floating ∧ (binary .add l r).MayJoin := by
  have sum : (binary .add l r).staticType = BinaryOp.add.resultType l.staticType r.staticType := rfl
  rw [sum]
  rcases h with hl | hr
  · rcases hl.str with type | type | ⟨type, join⟩
    · simp [BinaryOp.resultType, type]
    · cases other : r.staticType <;>
        simp [BinaryOp.resultType, type, OperandType.arithmetic, MayJoin.left, other]
    · have joins : (binary .add l r).MayJoin := .inLeft rfl join
      cases r.staticType <;> simp [BinaryOp.resultType, type, OperandType.arithmetic, joins]
  · rcases hr.str with type | type | ⟨type, join⟩
    · simp [BinaryOp.resultType, type]
    · cases other : l.staticType <;>
        simp [BinaryOp.resultType, type, OperandType.arithmetic, MayJoin.right, other]
    · have joins : (binary .add l r).MayJoin := .inRight rfl join
      cases l.staticType <;> simp [BinaryOp.resultType, type, OperandType.arithmetic, joins]

theorem admits_plus {host : Host} (hl : l.Admits left) (hr : r.Admits right)
    (h : Value.plus host left right = .ok v) : (binary .add l r).Admits v := by
  rcases Value.plus_eq_ok h with ⟨texts, s, rfl⟩ | added
  · have text : (∃ t, l.Admits (.str t)) ∨ ∃ t, r.Admits (.str t) := by
      rcases texts with ⟨t, rfl⟩ | ⟨t, rfl⟩
      · exact .inl ⟨t, hl⟩
      · exact .inr ⟨t, hr⟩
    obtain ⟨t, text⟩ : ∃ t, l.Admits (.str t) ∨ r.Admits (.str t) := exists_or.2 text
    rcases joins_of_str text with type | type | ⟨type, join⟩
    · exact admits_of_type (type ▸ rfl)
    · exact admits_of_object type _
    · exact .inr (.inr ⟨type, join, s, rfl⟩)
  · obtain ⟨typed, notLeft, notRight⟩ := admits_arithmetic hl hr added
    refine admits_of_type ?_
    show OperandType.admits (BinaryOp.resultType ..) v
    rw [BinaryOp.resultType, if_neg (not_or.2 ⟨notLeft, notRight⟩)]
    exact typed

/-- The operators that answer one of their sides. -/
theorem admits_selected (hop : op = .coalesce ∨ op = .elvis ∨ op = .ifPresent ∨ op = .ifTruthy)
    (h : l.Admits v ∨ r.Admits v) : (binary op l r).Admits v := by
  have type : (binary op l r).staticType = Parse.eitherType l.staticType r.staticType := by
    rcases hop with rfl | rfl | rfl | rfl <;> rfl
  have passes : op.passesTexts := by
    rcases hop with rfl | rfl | rfl | rfl <;> rfl
  unfold Parse.eitherType at type
  split at type
  case isTrue same =>
    rcases h with h | h
    · exact h.pass (.inl type) (.inLeft passes)
    · exact h.pass (.inl (type.trans same)) (.inRight passes)
  case isFalse => exact admits_of_object type v

/-- An operator keeps to the static types of its operands. -/
theorem admits_binary {host : Host} (hl : l.Admits left) (hr : r.Admits right)
    (h : Value.binary host op left right = .ok v) : (binary op l r).Admits v := by
  cases op with
  | add => exact admits_plus hl hr h
  | sub | mul => exact admits_of_type (admits_arithmetic hl hr h).1
  | div | mod | pow =>
    obtain ⟨d, rfl⟩ := Value.floating_eq_ok h
    exact admits_of_type rfl
  | shiftLeft | shiftRight | shiftRightUnsigned | bitAnd | bitXor | bitOr =>
    obtain ⟨a, b, rfl⟩ := Value.integral_eq_ok h
    exact admits_of_type rfl
  | and | or | eq | ne =>
    cases h
    exact admits_of_type rfl
  | lt | le | gt | ge =>
    obtain ⟨b, rfl⟩ := Value.ordered_eq_ok h
    exact admits_of_type rfl
  | compare =>
    obtain ⟨n, rfl⟩ := Value.threeWay_eq_ok h
    exact admits_of_type rfl
  | find | wholeMatch =>
    obtain ⟨b, rfl⟩ := Value.patternMatch_eq_ok h
    exact admits_of_type rfl
  | range | rangeExclusive => exact admits_of_object rfl v
  | coalesce | elvis | ifPresent | ifTruthy =>
    refine admits_selected (by simp) ?_
    rcases Value.binary_eq_left_or_right (by simp) h with rfl | rfl
    · exact .inl hl
    · exact .inr hr

theorem admits_unary {host : Host} {op : UnaryOp} {operand : Value} (n : Node)
    (h : Value.unary host op operand = .ok v) : (unary op n).Admits v := by
  unfold Value.unary at h
  cases op with
  | not =>
    cases h
    exact admits_of_type rfl
  | die => cases h
  | negate | plus | bitNot =>
    dsimp only at h
    split at h <;> cases h
    exact admits_of_type rfl

end Node

end TagExpr
