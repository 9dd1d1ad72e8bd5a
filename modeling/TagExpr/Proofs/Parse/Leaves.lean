import Mathlib.Data.List.Forall2
import TagExpr.Proofs.Parse.Whole

/-!
# The leaves of a parsed tree

Reading the leaves of a parsed tree from left to right gives the words of its text, each exactly
once and in order: no operand is dropped, duplicated or moved on its way through the stacks. A leaf
spells its word by what stands at the leaf's position, a constant up to the signs folded into it.
-/

namespace TagExpr

/-! ## Leaves -/

/-- What an operand of the text leaves in the tree. -/
inductive Leaf where
  | literal (value : Literal)
  | regex (source : String)
  | emptyMap
  | current (levels : Nat)
  | internal (lookup : Lookup) (name : InternalName)
  | localVar (slot : Nat)
  | binding (template : TemplateId) (slot : Nat)
  | identifier (ident : Nat) (lookup : Lookup)
  /-- The head of a call. -/
  | call (ident : Nat) (lookup : Lookup)
  | member (ident : Nat)
  /-- A member name with arguments. -/
  | method (ident : Nat)
  | named (target : Nat)
  | recurse
  | annotated (name : String)

namespace Node

mutual

/-- The leaves of a tree from left to right: a receiver before the member name and the arguments,
the head of a call before the arguments, the slot of an assignment in the place of its target. -/
def leaves : Node → List Leaf
  | .literal value => [.literal value]
  | .regex source => [.regex source]
  | .current levels => [.current levels]
  | .internal lookup name => [.internal lookup name]
  | .localVar slot => [.localVar slot]
  | .binding template slot => [.binding template slot]
  | .identifier ident lookup => [.identifier ident lookup]
  | .call ident lookup args => .call ident lookup :: leavesOfList args
  | .member receiver ident _ => leaves receiver ++ [.member ident]
  | .method receiver ident args _ => leaves receiver ++ .method ident :: leavesOfList args
  | .index receiver key _ => leaves receiver ++ leaves key
  | .named target args => .named target :: leavesOfList args
  | .recurse args => .recurse :: leavesOfList args
  | .annotated name args => .annotated name :: leavesOfList args
  | .unary _ operand => leaves operand
  | .binary _ left right => leaves left ++ leaves right
  | .ternary condition yes no => leaves condition ++ leaves yes ++ leaves no
  | .concat items | .list items | .set items | .sequence items => leavesOfList items
  | .map [] => [.emptyMap]
  | .map (entry :: entries) => leavesOfEntry entry ++ leavesOfEntries entries
  | .assignLocal slot value => .localVar slot :: leaves value
  | .assignBinding template slot value => .binding template slot :: leaves value
  | .stream _ source _ body => leaves source ++ leaves body
termination_by structural n => n

/-- The leaves of some trees. -/
def leavesOfList : List Node → List Leaf
  | [] => []
  | n :: rest => leaves n ++ leavesOfList rest

/-- The leaves of the entries of a map literal. -/
def leavesOfEntries : List (Node × Node) → List Leaf
  | [] => []
  | e :: rest => leavesOfEntry e ++ leavesOfEntries rest

/-- The leaves of one entry: those of the key, then those of the value. -/
def leavesOfEntry : Node × Node → List Leaf
  | (key, value) => leaves key ++ leaves value

end

theorem leavesOfList_append (ns ms : List Node) :
    leavesOfList (ns ++ ms) = leavesOfList ns ++ leavesOfList ms := by
  induction ns with
  | nil => simp [leavesOfList]
  | cons n ns ih => simp [leavesOfList, ih]

theorem mem_leavesOfList {ns : List Node} {leaf : Leaf} :
    leaf ∈ leavesOfList ns ↔ ∃ n ∈ ns, leaf ∈ n.leaves := by
  induction ns with
  | nil => simp [leavesOfList]
  | cons n ns ih => simp [leavesOfList, ih]

theorem mem_leavesOfEntries {es : List (Node × Node)} {leaf : Leaf} :
    leaf ∈ leavesOfEntries es ↔ ∃ e ∈ es, leaf ∈ leavesOfEntry e := by
  induction es with
  | nil => simp [leavesOfEntries]
  | cons e es ih => simp [leavesOfEntries, ih]

end Node

/-- The constants are equal, or they are numbers that differ in their sign. -/
inductive Literal.SameUpToSign : Literal → Literal → Prop
  | same (value : Literal) : SameUpToSign value value
  | int (n : Int64) : SameUpToSign (.int (-n)) (.int n)
  | double (d : Double) : SameUpToSign (.double d.negate) (.double d)

open Parse in
/-- The leaf is what the word leaves in a tree whose positions stand for what `N` says. -/
inductive Leaf.Spells (N : Names) : Leaf → Word → Prop
  | literal {value written : Literal} : value.SameUpToSign written →
      Spells N (.literal value) (.literal written)
  | regex (source : String) : Spells N (.regex source) (.regex source)
  | emptyMap : Spells N .emptyMap .emptyMap
  | current (levels : Nat) : Spells N (.current levels) (.current levels)
  | internal {name : String} {internal : InternalName} (lookup : Lookup) :
      InternalName.ofName? name = some internal →
      Spells N (.internal lookup internal) (.internal lookup name)
  | localVar {slot : Nat} {name : String} : N.slots[slot]? = some name →
      Spells N (.localVar slot) (.name .unstated name false)
  | binding {template : TemplateId} {slot : Nat} {name : String} :
      (N.bindings template)[slot]? = some name →
      Spells N (.binding template slot) (.name .unstated name false)
  | identifier {ident : Nat} {name : String} (lookup : Lookup) :
      N.identifiers[ident]? = some (.property name) →
      Spells N (.identifier ident lookup) (.name lookup name false)
  | call {ident arity : Nat} {name : String} (lookup : Lookup) :
      N.identifiers[ident]? = some (.method name arity) →
      Spells N (.call ident lookup) (.name lookup name true)
  | member {ident : Nat} {name : String} : N.identifiers[ident]? = some (.property name) →
      Spells N (.member ident) (.member name false)
  | method {ident arity : Nat} {name : String} :
      N.identifiers[ident]? = some (.method name arity) →
      Spells N (.method ident) (.member name true)
  | named {target : Nat} {name : String} (call : Bool) : N.expressions[target]? = some name →
      Spells N (.named target) (.name .unstated name call)
  | recurse {name : String} (call : Bool) : N.defining = some name →
      Spells N .recurse (.name .unstated name call)
  | annotated (name : String) (call : Bool) : Spells N (.annotated name) (.annotated name call)

namespace Parse

variable {N : Names} {o : Operand} {os : List Operand} {v w : List Word}

/-- The leaves of a fragment, those of the value of an entry last. -/
def Operand.leaves (o : Operand) : List Leaf :=
  o.node.leaves ++ (o.pairValue.map Node.leaves).getD []

/-- The leaves of the fragment spell the words from which it is derived, and it has a second tree
just if it is an entry of a map literal. -/
structure Spelled (N : Names) (o : Operand) (w : List Word) : Prop where
  derives : Derives N [o] w
  leaves : List.Forall₂ (Leaf.Spells N) o.leaves w
  pair : o.pairValue.isSome = o.isPair

/-! ## Single words -/

theorem Bare.leaves {name : String} {node : Node} (h : Bare N name node) :
    ∃ leaf, node.leaves = [leaf] ∧ Leaf.Spells N leaf (.name .unstated name false) := by
  cases h with
  | localVar hs => exact ⟨_, rfl, .localVar hs⟩
  | binding hb => exact ⟨_, rfl, .binding hb⟩
  | property _ hi => exact ⟨_, rfl, .identifier _ hi⟩
  | named hc =>
    cases hc with
    | named _ ht => exact ⟨_, rfl, .named false ht⟩
    | recurse _ hd => exact ⟨_, rfl, .recurse false hd⟩

theorem Simple.spelled {word : Word} (h : Simple N o word) : Spelled N o [word] := by
  have one {leaf : Leaf} (hl : o.leaves = [leaf]) (hs : Leaf.Spells N leaf word)
      (hp : o.pairValue.isSome = o.isPair) : Spelled N o [word] :=
    ⟨.word h, by rw [hl]; exact .cons hs .nil, hp⟩
  cases h with
  | literal value span => exact one rfl (.literal (.same value)) (by cases value <;> rfl)
  | regex source span => exact one rfl (.regex source) rfl
  | emptyMap span => exact one rfl .emptyMap rfl
  | current levels span => exact one rfl (.current levels) rfl
  | @internal _ internal lookup span hn =>
    exact one rfl (.internal lookup hn) (by cases internal <;> rfl)
  | annotated name span => exact one rfl (.annotated name false) rfl
  | property span _ hi => exact one rfl (.identifier _ hi) rfl
  | bare span hb =>
    obtain ⟨leaf, hl, hs⟩ := hb.leaves
    exact one (by simp [Operand.leaves, Operand.object, hl]) hs rfl

/-! ## Applied operators -/

theorem Spelled.node_leaves (h : Spelled N o w) (hp : ¬ o.isPair) :
    List.Forall₂ (Leaf.Spells N) o.node.leaves w := by
  have hnone : o.pairValue = none := by
    have := h.pair
    simpa [hp] using this
  simpa [Operand.leaves, hnone] using h.leaves

theorem foldSign?_sameUpToSign {op : UnaryOp} {node : Node} {value : Literal}
    (h : foldSign? op node = some value) :
    ∃ inner, node = .literal inner ∧
      ∀ written, inner.SameUpToSign written → value.SameUpToSign written := by
  unfold foldSign? at h
  split at h
  case h_1 n =>
    cases h
    exact ⟨_, rfl, fun _ hs => hs⟩
  case h_2 d =>
    cases h
    exact ⟨_, rfl, fun _ hs => hs⟩
  case h_3 n =>
    split at h
    case isTrue => cases h
    case isFalse =>
      cases h
      -- A second sign takes the first one back.
      refine ⟨_, rfl, fun written hs => ?_⟩
      cases hs with
      | same => exact .int n
      | int m =>
        rw [Int64.neg_neg]
        exact .same _
  case h_4 d =>
    cases h
    refine ⟨_, rfl, fun written hs => ?_⟩
    cases hs with
    | same => exact .double d
    | double e =>
      rw [Double.negate_negate]
      exact .same _
  case h_5 => cases h

theorem joinSequence_leaves (left right : Node) :
    (joinSequence left right).leaves = left.leaves ++ right.leaves := by
  unfold joinSequence
  split
  case h_1 items => simp [Node.leaves, Node.leavesOfList_append, Node.leavesOfList]
  case h_2 => simp [Node.leaves, Node.leavesOfList]

/-- The leaf of an assignment spells the word of the target. -/
theorem Target.leaves {target : Operand} {extra : Extra} (h : Target N target extra)
    (hs : Spelled N target v) (hp : ¬ target.isPair) :
    (∀ slot, extra = .assignLocal slot →
      List.Forall₂ (Leaf.Spells N) [.localVar slot] v) ∧
    ∀ template slot, extra = .assignBinding template slot →
      List.Forall₂ (Leaf.Spells N) [.binding template slot] v := by
  have hl := hs.node_leaves hp
  cases h with
  | localVar hn =>
    rw [hn] at hl
    exact ⟨fun _ he => by cases he; exact hl, fun _ _ he => by cases he⟩
  | declared hname hslot =>
    rw [(hs.derives.of_name rfl hname).1]
    exact ⟨fun _ he => by cases he; exact .cons (.localVar hslot) .nil, fun _ _ he => by cases he⟩
  | binding hn =>
    rw [hn] at hl
    exact ⟨fun _ he => (by cases he), fun _ _ he => by cases he; exact hl⟩
  | bound hname hslot =>
    rw [(hs.derives.of_name rfl hname).1]
    exact ⟨fun _ he => (by cases he), fun _ _ he => by cases he; exact .cons (.binding hslot) .nil⟩

theorem spelled_one {x : Operand} {vs : List (List Word)}
    (h : List.Forall₂ (Spelled N) [x] vs) : Spelled N x vs.flatten := by
  cases h with
  | cons hx hnil =>
    cases hnil
    simpa using hx

theorem spelled_two {left right : Operand} {vs : List (List Word)}
    (h : List.Forall₂ (Spelled N) [left, right] vs) :
    ∃ u v, vs.flatten = u ++ v ∧ Spelled N left u ∧ Spelled N right v := by
  cases h with
  | @cons _ u _ us hl hr => exact ⟨u, us.flatten, rfl, hl, spelled_one hr⟩

theorem Built.spelled {p : Pending} {args : List Operand} {vs : List (List Word)}
    (h : Built N p args o) (hp : ∀ arg ∈ args, ¬ arg.isPair)
    (hs : List.Forall₂ (Spelled N) args vs) (hd : Derives N args vs.flatten) :
    Spelled N o vs.flatten := by
  refine ⟨.built hd hp h, ?_, h.isSome_pairValue hp⟩
  cases h with
  | @sign op x value _ _ hf =>
    have hx := (spelled_one hs).node_leaves (hp x (by simp))
    obtain ⟨inner, hn, hsign⟩ := foldSign?_sameUpToSign hf
    rw [hn] at hx
    generalize vs.flatten = u at hx ⊢
    show List.Forall₂ (Leaf.Spells N) [Leaf.literal value] u
    cases hx with
    | cons hl hnil =>
      cases hl with
      | literal hu => exact .cons (.literal (hsign _ hu)) hnil
  | @unary op x =>
    have hx := (spelled_one hs).node_leaves (hp x (by simp))
    simpa [Operand.leaves, Node.leaves] using hx
  | @binary op left right =>
    obtain ⟨u, v, heq, hl, hr⟩ := spelled_two hs
    rw [heq]
    simpa [Operand.leaves, Node.leaves] using
      List.rel_append (hl.node_leaves (hp left (by simp))) (hr.node_leaves (hp right (by simp)))
  | @ternary condition yes no =>
    cases hs with
    | @cons _ u _ us hc hrest =>
      obtain ⟨v, w, heq, hy, hn⟩ := spelled_two hrest
      rw [List.flatten_cons, heq]
      have hcy := List.rel_append (hc.node_leaves (hp condition (by simp)))
        (hy.node_leaves (hp yes (by simp)))
      simpa [Operand.leaves, Node.leaves] using
        List.rel_append hcy (hn.node_leaves (hp no (by simp)))
  | @pair key value =>
    obtain ⟨u, v, heq, hk, hv⟩ := spelled_two hs
    rw [heq]
    simpa [Operand.leaves, Operand.pair] using
      List.rel_append (hk.node_leaves (hp key (by simp))) (hv.node_leaves (hp value (by simp)))
  | @assignLocal slot target value he ht =>
    obtain ⟨u, v, heq, htarget, hv⟩ := spelled_two hs
    rw [heq]
    have hleaf := (ht.leaves htarget (hp target (by simp))).1 slot he
    simpa [Operand.leaves, Node.leaves] using
      List.rel_append hleaf (hv.node_leaves (hp value (by simp)))
  | @assignBinding template slot target value he ht =>
    obtain ⟨u, v, heq, htarget, hv⟩ := spelled_two hs
    rw [heq]
    have hleaf := (ht.leaves htarget (hp target (by simp))).2 template slot he
    simpa [Operand.leaves, Node.leaves] using
      List.rel_append hleaf (hv.node_leaves (hp value (by simp)))
  | @stream op binding mark source body =>
    obtain ⟨u, v, heq, hl, hr⟩ := spelled_two hs
    rw [heq]
    simpa [Operand.leaves, Node.leaves] using
      List.rel_append (hl.node_leaves (hp source (by simp))) (hr.node_leaves (hp body (by simp)))
  | @sequence left right =>
    obtain ⟨u, v, heq, hl, hr⟩ := spelled_two hs
    rw [heq]
    simpa [Operand.leaves, joinSequence_leaves] using
      List.rel_append (hl.node_leaves (hp left (by simp))) (hr.node_leaves (hp right (by simp)))

/-! ## Closed containers -/

/-- The arguments of a call are no entries of a map literal, so their trees hold all their leaves.
-/
theorem leavesOfList_map {vs : List (List Word)} (h : List.Forall₂ (Spelled N) os vs)
    (hp : ∀ o ∈ os, ¬ o.isPair) :
    List.Forall₂ (Leaf.Spells N) (Node.leavesOfList (os.map (·.node))) vs.flatten := by
  induction h with
  | nil => exact .nil
  | @cons o v os vs ho _ ih =>
    exact List.rel_append (ho.node_leaves (hp o (by simp)))
      (ih fun o' ho' => hp o' (List.mem_cons_of_mem _ ho'))

theorem leavesOfEntries_filterMap {vs : List (List Word)} (h : List.Forall₂ (Spelled N) os vs)
    (hp : ∀ o ∈ os, o.isPair) :
    List.Forall₂ (Leaf.Spells N)
      (Node.leavesOfEntries (os.filterMap fun e => e.pairValue.map (e.node, ·))) vs.flatten := by
  induction h with
  | nil => exact .nil
  | @cons o v os vs ho _ ih =>
    have hrest := ih fun o' ho' => hp o' (List.mem_cons_of_mem _ ho')
    obtain ⟨value, hvalue⟩ := Option.isSome_iff_exists.mp (ho.pair.trans (hp o (by simp)))
    have hl := ho.leaves
    simp only [Operand.leaves, hvalue, Option.map_some, Option.getD_some] at hl
    simp only [List.filterMap_cons, hvalue, Option.map_some, Node.leavesOfEntries,
      Node.leavesOfEntry, List.flatten_cons]
    exact List.rel_append hl hrest

theorem collection?_leaves {kind : OpKind} {elements : List Operand} {node : Node}
    {vs : List (List Word)} (h : collection? kind elements = some node)
    (hs : List.Forall₂ (Spelled N) elements vs) :
    List.Forall₂ (Leaf.Spells N) node.leaves vs.flatten := by
  unfold collection? at h
  split at h
  case isTrue hplain =>
    cases h
    have hl := leavesOfList_map hs (by simpa using hplain)
    split
    case isTrue => exact hl
    case isFalse => exact hl
  case isFalse hnot =>
    split at h
    case isFalse => cases h
    case isTrue hpairs =>
      cases h
      have hpairs' : ∀ e ∈ elements, e.isPair := by simpa using hpairs
      have hl := leavesOfEntries_filterMap hs hpairs'
      cases hs with
      | nil => simp at hnot
      | @cons e v rest vs he _ =>
        -- The empty map has a leaf of its own, but a literal with entries is not empty.
        obtain ⟨value, hvalue⟩ := Option.isSome_iff_exists.mp (he.pair.trans (hpairs' e (by simp)))
        simp only [List.filterMap_cons, hvalue, Option.map_some] at hl ⊢
        exact hl

theorem Closed.spelled {p : Pending} {close : Span} {receivers elements : List Operand}
    {vs us : List (List Word)} (h : Closed N p close receivers elements o)
    (hr : List.Forall₂ (Spelled N) receivers vs) (he : List.Forall₂ (Spelled N) elements us)
    (hrp : ∀ r ∈ receivers, ¬ r.isPair) (hd : Derives N receivers vs.flatten)
    (hd' : Derives N elements us.flatten) :
    Spelled N o (vs.flatten ++ p.words ++ us.flatten) := by
  have hder := Derives.closed hd hrp hd' h
  have head {word : Word} (hw : p.words = [word]) {leaf : Leaf} (hl : Leaf.Spells N leaf word) :
      List.Forall₂ (Leaf.Spells N) [leaf] p.words := by
    rw [hw]
    exact .cons hl .nil
  cases h with
  | @group element _ hextra hp =>
    have hw : p.words = [] := by simp [Pending.words, hextra]
    cases hr
    have hel := (spelled_one he).node_leaves hp
    refine ⟨hder, ?_, ?_⟩
    · simpa [hw, Operand.leaves] using hel
    · simpa [Operand.isPair] using hp
  | collection hextra hc =>
    have hw : p.words = [] := by simp [Pending.words, hextra]
    cases hr
    refine ⟨hder, ?_, rfl⟩
    simpa [hw, Operand.leaves, Operand.object] using collection?_leaves hc he
  | @lookup safe receiver key _ hextra hp =>
    have hw : p.words = [] := by simp [Pending.words, hextra]
    refine ⟨hder, ?_, rfl⟩
    have hrec := (spelled_one hr).node_leaves (hrp receiver (by simp))
    simpa [hw, Operand.leaves, Operand.object, Node.leaves] using
      List.rel_append hrec ((spelled_one he).node_leaves hp)
  | @named name args node hextra hp hc =>
    have hw : p.words = [.name .unstated name true] := by simp [Pending.words, hextra]
    cases hr
    refine ⟨hder, ?_, rfl⟩
    have hargs := leavesOfList_map he hp
    cases hc with
    | named _ ht =>
      simpa [Operand.leaves, Operand.object, Node.leaves] using
        List.rel_append (head hw (.named true ht)) hargs
    | recurse _ hdef =>
      simpa [Operand.leaves, Operand.object, Node.leaves] using
        List.rel_append (head hw (.recurse true hdef)) hargs
  | @call name lookup args ident hextra hp _ hi =>
    have hw : p.words = [.name lookup name true] := by simp [Pending.words, hextra]
    cases hr
    refine ⟨hder, ?_, rfl⟩
    simpa [Operand.leaves, Operand.object, Node.leaves] using
      List.rel_append (head hw (.call lookup hi)) (leavesOfList_map he hp)
  | @method name safe receiver args ident hextra hp hi =>
    have hw : p.words = [.member name true] := by simp [Pending.words, hextra]
    refine ⟨hder, ?_, rfl⟩
    have hrec := (spelled_one hr).node_leaves (hrp receiver (by simp))
    have hhead := List.rel_append hrec (head hw (.method hi))
    simpa [Operand.leaves, Operand.object, Node.leaves] using
      List.rel_append hhead (leavesOfList_map he hp)
  | @annotated name args hextra hp =>
    have hw : p.words = [.annotated name true] := by simp [Pending.words, hextra]
    cases hr
    refine ⟨hder, ?_, rfl⟩
    simpa [Operand.leaves, Operand.object, Node.leaves] using
      List.rel_append (head hw (.annotated name true)) (leavesOfList_map he hp)

/-! ## Derived fragments -/

/-- Fragments that are derived from words spell them. -/
theorem Derives.spelled (h : Derives N os w) :
    ∃ vs, w = vs.flatten ∧ List.Forall₂ (Spelled N) os vs := by
  have one {o : Operand} {w : List Word} (hs : Spelled N o w) :
      ∃ vs, w = vs.flatten ∧ List.Forall₂ (Spelled N) [o] vs :=
    ⟨[w], by simp, .cons hs .nil⟩
  induction h with
  | nil => exact ⟨[], rfl, .nil⟩
  | cons _ _ iho ihos =>
    obtain ⟨vs, rfl, hs⟩ := iho
    obtain ⟨us, rfl, hs'⟩ := ihos
    exact ⟨_ :: us, rfl, .cons (spelled_one hs) hs'⟩
  -- In all other cases one fragment is made, of fragments that spell their words.
  | word hs => exact one hs.spelled
  | concat span he hd hp ih =>
    obtain ⟨vs, rfl, hs⟩ := ih
    refine one ⟨.concat span he hd hp, ?_, rfl⟩
    simpa [Operand.leaves, Node.leaves] using leavesOfList_map hs hp
  | @member receiver _ ident name safe span hd hp hi ih =>
    obtain ⟨vs, rfl, hs⟩ := ih
    refine one ⟨.member safe span hd hp hi, ?_, rfl⟩
    have hmember : List.Forall₂ (Leaf.Spells N) [.member ident] [.member name false] :=
      .cons (.member hi) .nil
    simpa [Operand.leaves, Operand.object, Node.leaves] using
      List.rel_append ((spelled_one hs).node_leaves hp) hmember
  | built hd hp hb ih =>
    obtain ⟨vs, rfl, hs⟩ := ih
    exact one (hb.spelled hp hs hd)
  | closed hd hp hd' hc ih ih' =>
    obtain ⟨vs, rfl, hs⟩ := ih
    obtain ⟨us, rfl, hs'⟩ := ih'
    exact one (hc.spelled hs hs' hp hd hd')

/-- So does the tree of a single fragment that is no entry. -/
theorem Derives.node_leaves (h : Derives N [o] w) (hp : ¬ o.isPair) :
    List.Forall₂ (Leaf.Spells N) o.node.leaves w := by
  obtain ⟨vs, rfl, hs⟩ := h.spelled
  exact (spelled_one hs).node_leaves hp

end Parse

/-! ## Whole texts -/

open Parse in
/-- The leaves of a parsed tree spell the words of its text, in order and each exactly once. The
positions stand for what the tables and the scope list, the first local slots for the parameters. -/
theorem leaves_spell_words {ε : Type} {text : String} {offset : Nat}
    {scope scope' : TemplateScope ε} {p : Parsed ε}
    (h : parse text offset scope = (.ok p, scope')) :
    ∃ N, Lists N p scope' ∧ paramsOf scope.extensions text <+: N.slots ∧
      List.Forall₂ (Leaf.Spells N) p.node.leaves (wordsOf scope.extensions text) := by
  obtain ⟨N, o, hl, hparams, hnode, -, -, hp, hd⟩ := parse_derives h
  obtain ⟨vs, heq, hs⟩ := hd.spelled
  refine ⟨N, hl, hparams, ?_⟩
  rw [heq, ← hnode]
  exact (spelled_one hs).node_leaves hp

open Parse in
theorem leaves_spell_words_of_entries :
    ∃ p scope', parse "f([a: -1, 'b': x.c(2)])" 0 (TemplateScope.fresh : TemplateScope Nat) =
        (.ok p, scope') ∧
      ∃ N, Lists N p scope' ∧ paramsOf .all "f([a: -1, 'b': x.c(2)])" <+: N.slots ∧
        List.Forall₂ (Leaf.Spells N) p.node.leaves (wordsOf .all "f([a: -1, 'b': x.c(2)])") := by
  obtain ⟨p, scope', h⟩ := parse_of_isOk "f([a: -1, 'b': x.c(2)])" 0
    (TemplateScope.fresh : TemplateScope Nat) (by decide +kernel)
  exact ⟨p, scope', h, leaves_spell_words h⟩

end TagExpr
