import TagExpr.Proofs.Parse.Leaves
import TagExpr.Proofs.Scoping.Locals

/-!
# Mentions of named expressions

A name that can be called is never looked up in the section frames: with a parenthesis after it, it
is the head of a call of the named expression, and bare it is that call as well unless a local or a
template binding of the name is visible. The leaves of a tree and the visits of a walk over it come
in the order of the words, so what is known of the reading of a name is known of its leaf.
-/

namespace TagExpr

namespace Parse

variable {ε : Type} {N : Names} {o : Operand} {os : List Operand} {w : List Word}

/-! ## Names that are looked up -/

/-- The leaf looks the name up in the section frames: it is a name without marks, read or called. -/
inductive LooksUp (N : Names) (name : String) : Leaf → Prop
  | read {ident : Nat} : N.identifiers[ident]? = some (.property name) →
      LooksUp N name (.identifier ident .unstated)
  | call {ident arity : Nat} : N.identifiers[ident]? = some (.method name arity) →
      LooksUp N name (.call ident .unstated)

/-- None of the names that the leaves look up in the section frames can be called. -/
def Settled (N : Names) (leaves : List Leaf) : Prop :=
  ∀ leaf ∈ leaves, ∀ name, LooksUp N name leaf → N.callable name = false

theorem settled_nil : Settled N [] := by simp [Settled]

@[simp] theorem settled_append {ls ms : List Leaf} :
    Settled N (ls ++ ms) ↔ Settled N ls ∧ Settled N ms :=
  List.forall_mem_append

/-- A leaf that looks up nothing. -/
theorem settled_one {leaf : Leaf} (h : ∀ name, ¬ LooksUp N name leaf) : Settled N [leaf] := by
  intro l hl name hlooks
  rw [List.mem_singleton.mp hl] at hlooks
  exact absurd hlooks (h name)

theorem settled_cons {leaf : Leaf} {ls : List Leaf} (h : ∀ name, ¬ LooksUp N name leaf)
    (hls : Settled N ls) : Settled N (leaf :: ls) :=
  settled_append.mpr ⟨settled_one h, hls⟩

theorem settled_leavesOfList {ns : List Node} (h : ∀ n ∈ ns, Settled N n.leaves) :
    Settled N (Node.leavesOfList ns) := by
  intro leaf hleaf
  obtain ⟨n, hn, hleaf⟩ := Node.mem_leavesOfList.mp hleaf
  exact h n hn leaf hleaf

theorem settled_leavesOfEntries {es : List (Node × Node)}
    (h : ∀ e ∈ es, Settled N (Node.leavesOfEntry e)) : Settled N (Node.leavesOfEntries es) := by
  intro leaf hleaf
  obtain ⟨e, he, hleaf⟩ := Node.mem_leavesOfEntries.mp hleaf
  exact h e he leaf hleaf

/-! ## Fragments -/

theorem Operand.settled_node (h : Settled N o.leaves) : Settled N o.node.leaves :=
  (settled_append.mp h).1

theorem Operand.settled_nodes (h : ∀ o ∈ os, Settled N o.leaves) :
    Settled N (Node.leavesOfList (os.map (·.node))) := by
  refine settled_leavesOfList fun n hn => ?_
  obtain ⟨o, ho, rfl⟩ := List.mem_map.mp hn
  exact o.settled_node (h o ho)

theorem Callee.settled {name : String} {args : List Node} {node : Node}
    (h : Callee N name args node) (ha : Settled N (Node.leavesOfList args)) :
    Settled N node.leaves := by
  cases h with
  | named => exact settled_cons (by rintro _ ⟨⟩) ha
  | recurse => exact settled_cons (by rintro _ ⟨⟩) ha

theorem Simple.settled {word : Word} (h : Simple N o word) : Settled N o.leaves := by
  cases h with
  | literal | regex | emptyMap | current | internal | annotated =>
    exact settled_one (by rintro _ ⟨⟩)
  | property span hl =>
    refine settled_one fun name hlooks => ?_
    cases hlooks
    exact hl rfl
  | @bare name node span hb =>
    have hleaves : Settled N node.leaves := by
      cases hb with
      | localVar | binding => exact settled_one (by rintro _ ⟨⟩)
      | named hc => exact hc.settled settled_nil
      | property hc hi =>
        intro leaf hleaf other hlooks
        rw [List.mem_singleton.mp hleaf] at hlooks
        cases hlooks with
        | read hi' =>
          -- The name at the position is the one that the word is.
          obtain rfl : other = name := congrArg IdentKey.name (Option.some.inj (hi'.symm.trans hi))
          exact hc
    simpa [Operand.leaves, Operand.object] using hleaves

theorem Built.settled {p : Pending} {args : List Operand} (h : Built N p args o)
    (ha : ∀ a ∈ args, Settled N a.leaves) : Settled N o.leaves := by
  have node {a : Operand} (hmem : a ∈ args) : Settled N a.node.leaves := a.settled_node (ha a hmem)
  cases h with
  | sign => exact settled_one (by rintro _ ⟨⟩)
  | @unary _ x => simpa [Operand.leaves, Node.leaves] using node (a := x) (by simp)
  | binary | ternary | pair | stream =>
    simp [Operand.leaves, Operand.pair, Node.leaves, node]
  | @assignLocal slot _ value =>
    have hvalue : Settled N (.localVar slot :: value.node.leaves) :=
      settled_cons (by rintro _ ⟨⟩) (node (by simp))
    simpa [Operand.leaves, Node.leaves] using hvalue
  | @assignBinding template slot _ value =>
    have hvalue : Settled N (.binding template slot :: value.node.leaves) :=
      settled_cons (by rintro _ ⟨⟩) (node (by simp))
    simpa [Operand.leaves, Node.leaves] using hvalue
  | sequence => simp [Operand.leaves, joinSequence_leaves, node]

theorem collection?_settled {kind : OpKind} {elements : List Operand} {node : Node}
    (h : collection? kind elements = some node) (he : ∀ e ∈ elements, Settled N e.leaves) :
    Settled N node.leaves := by
  unfold collection? at h
  split at h
  case isTrue =>
    cases h
    split <;> exact Operand.settled_nodes he
  case isFalse =>
    split at h
    case isFalse => cases h
    case isTrue =>
      cases h
      have hentries : ∀ entry ∈ elements.filterMap fun e => e.pairValue.map (e.node, ·),
          Settled N (Node.leavesOfEntry entry) := by
        intro entry hentry
        obtain ⟨e, hmem, hvalue⟩ := List.mem_filterMap.mp hentry
        obtain ⟨value, hsome, rfl⟩ := Option.map_eq_some_iff.mp hvalue
        simpa [Operand.leaves, hsome, Node.leavesOfEntry] using he e hmem
      cases hmap : elements.filterMap fun e => e.pairValue.map (e.node, ·) with
      | nil => exact settled_one (by rintro _ ⟨⟩)
      | cons entry entries =>
        rw [hmap] at hentries
        exact settled_leavesOfEntries hentries

theorem Closed.settled {p : Pending} {close : Span} {receivers elements : List Operand}
    (h : Closed N p close receivers elements o) (hr : ∀ r ∈ receivers, Settled N r.leaves)
    (he : ∀ e ∈ elements, Settled N e.leaves) : Settled N o.leaves := by
  have args := Operand.settled_nodes he
  cases h with
  | @group element =>
    simpa [Operand.leaves] using element.settled_node (he element (by simp))
  | collection _ hc => simpa [Operand.leaves, Operand.object] using collection?_settled hc he
  | @lookup _ receiver key =>
    simpa [Operand.leaves, Operand.object, Node.leaves] using
      ⟨receiver.settled_node (hr receiver (by simp)), key.settled_node (he key (by simp))⟩
  | named _ _ hc => simpa [Operand.leaves, Operand.object] using hc.settled args
  | @call name lookup _ ident _ _ hc hi =>
    have head : Settled N [.call ident lookup] := by
      intro leaf hleaf other hlooks
      rw [List.mem_singleton.mp hleaf] at hlooks
      cases hlooks with
      | call hi' =>
        obtain rfl : other = name := congrArg IdentKey.name (Option.some.inj (hi'.symm.trans hi))
        exact hc rfl
    simpa [Operand.leaves, Operand.object, Node.leaves] using settled_append.mpr ⟨head, args⟩
  | @method _ _ receiver _ ident =>
    have hargs : Settled N (.method ident :: Node.leavesOfList (elements.map (·.node))) :=
      settled_cons (by rintro _ ⟨⟩) args
    simpa [Operand.leaves, Operand.object, Node.leaves] using
      ⟨receiver.settled_node (hr receiver (by simp)), hargs⟩
  | @annotated name =>
    have hargs : Settled N (.annotated name :: Node.leavesOfList (elements.map (·.node))) :=
      settled_cons (by rintro _ ⟨⟩) args
    simpa [Operand.leaves, Operand.object, Node.leaves] using hargs

/-- **No derived fragment looks up a name that can be called.** -/
theorem Derives.settled (h : Derives N os w) : ∀ o ∈ os, Settled N o.leaves := by
  have one {o : Operand} (h : Settled N o.leaves) : ∀ o' ∈ [o], Settled N o'.leaves := by
    simpa using h
  induction h with
  | nil => simp
  | cons _ _ iho ihos => exact List.forall_mem_cons.mpr ⟨iho _ (by simp), ihos⟩
  | word hs => exact one hs.settled
  | concat span _ _ _ ih =>
    exact one (by simpa [Operand.leaves, Node.leaves] using Operand.settled_nodes ih)
  | @member receiver _ _ _ _ _ _ _ _ ih =>
    have hreceiver := receiver.settled_node (ih receiver (by simp))
    refine one ?_
    simpa [Operand.leaves, Operand.object, Node.leaves] using
      ⟨hreceiver, settled_one (by rintro _ ⟨⟩)⟩
  | built _ _ hb ih => exact one (hb.settled ih)
  | closed _ _ _ hc ihr ihe => exact one (hc.settled ihr ihe)

end Parse

/-! ## Leaves and visits -/

/-- The local or binding that the leaf reads or writes. -/
def Leaf.place? : Leaf → Option Place
  | .localVar slot => some (.slot slot)
  | .binding template slot => some (.binding template slot)
  | _ => none

/-- The local or binding that an operand reads or writes, of a visit that is that of an operand. -/
def Visit.operand? : Visit → Option (Option Place)
  | .assigns place | .reads place => some (some place)
  | .other => some none
  | .enter | .leave | .clause _ => none

/-- The operands among the visits, by the locals and bindings that they read or write. -/
def Visit.operands (vs : List Visit) : List (Option Place) := vs.filterMap operand?

namespace Visit

@[simp] theorem operands_nil : operands [] = [] := rfl

@[simp] theorem operands_append (us vs : List Visit) :
    operands (us ++ vs) = operands us ++ operands vs :=
  List.filterMap_append

theorem operands_cons (v : Visit) (vs : List Visit) :
    operands (v :: vs) = v.operand?.toList ++ operands vs := by
  cases h : v.operand? <;> simp [operands, h]

@[simp] theorem operands_enclosed (vs : List Visit) : operands (enclosed vs) = operands vs := by
  simp [enclosed, operands_cons, operand?]

@[simp] theorem operands_ofClause (slot : Option Nat) : operands (ofClause slot) = [] := by
  cases slot <;> rfl

end Visit

namespace Node

open Visit

mutual

/-- A walk meets the operands of a tree in the order of its leaves. -/
theorem operands_visits : ∀ n : Node, operands n.visits = n.leaves.map Leaf.place?
  | .literal _ | .regex _ | .current _ | .internal _ _ | .identifier _ _ | .map [] => rfl
  | .localVar _ | .binding _ _ => rfl
  | .call _ _ args | .named _ args | .recurse args | .annotated _ args => by
    simp [visits, leaves, operands_cons, operand?, Leaf.place?, operands_visitsOfList args]
  | .member receiver _ _ => by
    simp [visits, leaves, operands_cons, operand?, Leaf.place?, operands_visits receiver]
  | .method receiver _ args _ => by
    simp [visits, leaves, operands_cons, operand?, Leaf.place?, operands_visits receiver,
      operands_visitsOfList args]
  | .index receiver key _ => by
    simp [visits, leaves, operands_visits receiver, operands_visits key]
  | .unary _ operand => operands_visits operand
  | .binary _ left right => by
    simp [visits, leaves, operands_visits left, operands_visits right]
  | .ternary condition yes no => by
    simp [visits, leaves, operands_visits condition, operands_visits yes, operands_visits no]
  | .concat parts => operands_visitsOfParts parts
  | .list items | .set items | .sequence items => operands_visitsOfList items
  | .map (entry :: entries) => by
    simp [visits, leaves, operands_visitsOfEntry entry, operands_visitsOfEntries entries]
  | .assignLocal _ value | .assignBinding _ _ value => by
    simp [visits, leaves, operands_cons, operand?, Leaf.place?, operands_visits value]
  | .stream _ source slot body => by
    simp [visits, leaves, operands_visits source, operands_visits body]
termination_by structural n => n

theorem operands_visitsOfList : ∀ ns : List Node,
    operands (visitsOfList ns) = (leavesOfList ns).map Leaf.place?
  | [] => rfl
  | n :: rest => by
    simp [visitsOfList, leavesOfList, operands_visits n, operands_visitsOfList rest]

theorem operands_visitsOfParts : ∀ ns : List Node,
    operands (visitsOfParts ns) = (leavesOfList ns).map Leaf.place?
  | [] => rfl
  | n :: rest => by
    simp [visitsOfParts, leavesOfList, operands_visits n, operands_visitsOfParts rest]

theorem operands_visitsOfEntries : ∀ es : List (Node × Node),
    operands (visitsOfEntries es) = (leavesOfEntries es).map Leaf.place?
  | [] => rfl
  | entry :: rest => by
    simp [visitsOfEntries, leavesOfEntries, operands_visitsOfEntry entry,
      operands_visitsOfEntries rest]

theorem operands_visitsOfEntry : ∀ e : Node × Node,
    operands (visitsOfEntry e) = (leavesOfEntry e).map Leaf.place?
  | (key, value) => by
    simp [visitsOfEntry, leavesOfEntry, operands_visits key, operands_visits value]

end

end Node

namespace Scoping

variable {ε : Type} {r r' : Reading ε} {v : Visit} {vs : List Visit} {c cs ds es : List Cue}

/-- A step is that of an operand just if it has a word. -/
theorem Step.length_operands (h : Step r v c r') :
    v.operand?.toList.length = (Cue.words c).length := by
  cases h with
  | enter | leave | clause | other | assign | declare | bind => rfl
  | @name _ name hr =>
    subst hr
    rcases r.resolve_cases name with h | ⟨place, h⟩ <;> rw [h] <;> rfl

theorem Reads.length_operands (h : Reads r vs cs r') :
    (Visit.operands vs).length = (Cue.words cs).length := by
  induction h with
  | nil => rfl
  | cons hstep _ ih =>
    rw [Visit.operands_cons, Cue.words_append, List.length_append, List.length_append,
      hstep.length_operands, ih]

/-- The visit at which a word is read, and its place among the operands. -/
theorem Reads.at_word {w : Word} (h : Reads r vs (ds ++ .word w :: es) r') :
    ∃ us v ws r₁ r₂ c rest, vs = us ++ v :: ws ∧ es = c ++ rest ∧ Reads r us ds r₁ ∧
      Step r₁ v (.word w :: c) r₂ ∧ Reads r₂ ws rest r' ∧
      (Visit.operands vs)[(Cue.words ds).length]? = v.operand? := by
  obtain ⟨us, v, ws, r₁, r₂, ds', c₁, c, rest, rfl, rfl, hc, hus, hstep, hws⟩ := h.at_cue rfl
  obtain rfl := hstep.first_cue rfl
  refine ⟨us, v, ws, r₁, r₂, c, rest, rfl, hc, by rwa [List.append_nil], hstep, hws, ?_⟩
  have hcount : 0 < v.operand?.toList.length := by
    rw [hstep.length_operands]
    simp [Cue.words, Cue.word?]
  rw [List.append_nil, Visit.operands_append, Visit.operands_cons, ← hus.length_operands]
  cases hv : v.operand? with
  | none => simp [hv] at hcount
  | some place => simp

/-- Where neither `=` nor `:=` follows, a bare name is met as what it resolves to. -/
theorem Step.eq_resolve {name : String} (h : Step r v (.word (.bare name) :: c) r') (hc : c <+: es)
    (hassign : es.head? ≠ some .assign) (hbind : es.head? ≠ some .bind) : v = r.resolve name := by
  obtain ⟨rest, rfl⟩ := hc
  cases h with
  | name hr => exact hr.symm
  | other hw => exact absurd rfl (hw name)
  | assign | declare => exact absurd rfl hassign
  | bind => exact absurd rfl hbind

end Scoping

/-! ## Mentions -/

theorem getElem?_of_forall₂ {α β : Type} {R : α → β → Prop} {as : List α} {bs : List β}
    (h : List.Forall₂ R as bs) {i : Nat} {b : β} (hb : bs[i]? = some b) :
    ∃ a, as[i]? = some a ∧ R a b := by
  obtain ⟨hlength, hget⟩ := List.forall₂_iff_get.mp h
  obtain ⟨hi, rfl⟩ := List.getElem?_eq_some_iff.mp hb
  exact ⟨as[i], List.getElem?_eq_getElem (hlength ▸ hi), hget i (hlength ▸ hi) hi⟩

open Parse Scoping

variable {ε : Type} {text : String} {offset : Nat} {scope scope' : TemplateScope ε} {p : Parsed ε}

/-- In the definition of `own`, if that is what the tree belongs to, the leaf calls the expression
of that name: itself, or one that has been defined and is at the leaf's position in the table. -/
inductive Leaf.Calls (own : Option String) (expressions : List ε) (scope : TemplateScope ε)
    (name : String) : Leaf → Prop
  | recurse : own = some name → Calls own expressions scope name .recurse
  | named {target : Nat} {e : ε} : scope.named? name = some (.defined e) →
      expressions[target]? = some e → Calls own expressions scope name (.named target)

/-- The leaf of a name between the cues `ds` and `es` of a text is as `P` says if the name is
called. It is so too if the name is bare and read, and no local and no template binding of that name
is visible where a walk over the tree comes to it. -/
def Mention (start : Reading ε) (body : Node) (ds es : List Cue) (name : String) (call : Bool)
    (P : Leaf → Prop) : Prop :=
  ∃ before v after r c r' leaf, body.visits = before ++ v :: after ∧ Reads start before ds r ∧
    c <+: es ∧ Step r v (.word (.name .unstated name call) :: c) r' ∧
    body.leaves[(Cue.words ds).length]? = some leaf ∧
    (call = true ∨ es.head? ≠ some .assign ∧ es.head? ≠ some .bind ∧ r.resolve name = .other →
      P leaf)

theorem Mention.mono {start : Reading ε} {body : Node} {ds es : List Cue} {name : String}
    {call : Bool} {P Q : Leaf → Prop} (h : Mention start body ds es name call P)
    (himp : ∀ leaf, P leaf → Q leaf) : Mention start body ds es name call Q := by
  obtain ⟨before, v, after, r, c, r', leaf, hvisits, hreads, hc, hstep, hleaf, hmeans⟩ := h
  exact ⟨before, v, after, r, c, r', leaf, hvisits, hreads, hc, hstep, hleaf,
    fun hword => himp leaf (hmeans hword)⟩

/-- **The mentions of a name that can be called are calls of its expression**, unless a local or a
template binding hides it. -/
theorem Parsed.mentions_at (h : parse text offset scope = (.ok p, scope')) {ds es : List Cue}
    {name : String} {call : Bool} (hcall : canCall scope' p.name name)
    (hcues : cuesOf scope.extensions text = ds ++ .word (.name .unstated name call) :: es) :
    Mention (.ofText text scope) p.node ds es name call
      (Leaf.Calls p.name p.expressions scope' name) := by
  obtain ⟨last, hreads, -⟩ := parse_reads h
  obtain ⟨N, o, hl, -, hnode, -, ⟨hcallable, -⟩, hp, hd⟩ := parse_derives h
  have hspells : List.Forall₂ (Leaf.Spells N) p.node.leaves (wordsOf scope.extensions text) :=
    hnode ▸ hd.node_leaves hp
  rw [hcues] at hreads
  obtain ⟨before, v, after, r, r', c, rest, hvisits, hrest, hbefore, hstep, -, hoperand⟩ :=
    hreads.at_word
  have hc : c <+: es := ⟨rest, hrest.symm⟩
  -- The leaf in the place of the word spells it.
  have hword : (wordsOf scope.extensions text)[(Cue.words ds).length]? =
      some (.name .unstated name call) := by
    rw [wordsOf, ← words_cues]
    show (Cue.words (cuesOf scope.extensions text))[_]? = _
    rw [hcues]
    simp [Cue.words, Cue.word?]
  obtain ⟨leaf, hleaf, hspell⟩ := getElem?_of_forall₂ hspells hword
  refine ⟨before, v, after, r, c, r', leaf, hvisits, hbefore, hc, hstep, hleaf, fun hmeans => ?_⟩
  have hsettled : ¬ LooksUp N name leaf := by
    intro hlooks
    have hmem : leaf ∈ o.leaves :=
      List.mem_append_left _ (hnode ▸ List.mem_of_getElem? hleaf)
    have hnot := hd.settled o (by simp) leaf hmem name hlooks
    rw [hcallable, hcall] at hnot
    cases hnot
  -- What is in the way of a call is met as a local or a binding.
  rw [Node.operands_visits, List.getElem?_map, hleaf, Option.map_some] at hoperand
  have hplace (hbare : call = false) : leaf.place? = none := by
    subst hbare
    obtain ⟨hassign, hbind, hother⟩ := hmeans.resolve_left (by simp)
    rw [hstep.eq_resolve hc hassign hbind, hother] at hoperand
    exact Option.some.inj hoperand
  cases hspell with
  | localVar | binding => cases hplace rfl
  | identifier _ hi => exact absurd (.read hi) hsettled
  | call _ hi => exact absurd (.call hi) hsettled
  | named _ ht =>
    obtain ⟨e, he, hnamed⟩ := hl.defined _ _ ht
    exact .named hnamed he
  | recurse _ hdef => exact .recurse (hl.defining.symm.trans hdef)

end TagExpr
