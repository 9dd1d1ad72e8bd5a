import Mathlib.Data.List.Forall2
import TagExpr.Proofs.Climbing.Branches
import TagExpr.Proofs.Parse.Questions

/-!
# Nested ternaries are parsed

Directly inside the brackets of a literal no question mark is open, so the first colon of an entry
makes the pair, and whatever follows it is read over that colon. A comma or the closer applies all
that has been read since the last comma, so every element becomes one fragment of its own.

The parse of a ternary, and of a literal with ternaries for elements, is the tree of its derivation.
-/

namespace TagExpr.Climbing

open Parse

variable {ε : Type} {table left : List IdentKey} {bracket : Bracket} {opened : Span}
  {os : List Operand} {b : Bench ε} {base : Nat} {lexemes : List String}
  {Q : Operand → Bench ε → Prop} {E : ParseError → Bench ε → Prop}

/-! ## Open brackets -/

/-- A literal is open and has the elements `os` already, the last one first. -/
def Bracket.below (bracket : Bracket) (opened : Span) (os : List Operand) : Below where
  operators := [{ op := bracket.row, span := opened, base := 0, commas := os.length }]
  operands := os
  floor := by cases bracket <;> exact Nat.zero_le _
  loose := by cases bracket <;> simp [Bracket.row, OpKind.isContainer, OpKind.closer?]

theorem Bracket.isContainer_row (bracket : Bracket) : bracket.row.kind.isContainer := by
  cases bracket <;> rfl

/-- Whatever stops at containers stops at the bracket. -/
theorem Bracket.stays {q : Pending → Bool} (hq : ∀ p, p.op.kind.isContainer → q p = false) :
    ∀ p ∈ (bracket.below opened os).operators.head?, q p = false := by
  intro p hp
  cases hp
  exact hq _ bracket.isContainer_row

/-! ## Elements -/

/-- The fragment holds what the element stands for. -/
structure Element.Holds (table : List IdentKey) (e : Element) (o : Operand) : Prop where
  typed : e.Typed
  isPair : o.isPair = e.key.isSome
  node : o.node = (e.key.map (·.node table)).getD (e.value.node table)
  pairValue : e.key.isSome → o.pairValue = some (e.value.node table)

theorem Ternary.Holds.element {t : Ternary} {o : Operand} (h : t.Holds table o) :
    Element.Holds table ⟨none, t⟩ o where
  typed := ⟨by simp, by simp [h.type]⟩
  isPair := by simpa using h.not_isPair
  node := h.node
  pairValue := by simp

/-- The colon of an entry makes a pair of the key and the value. -/
theorem ends_apply_pairing {key : Arm} {value : Ternary} {p : Pending} {k v : Operand}
    {os : List Operand} (hp : p.op = .pairing) (hplain : p.extra = .plain)
    (hk : Climbing.Holds table key.chain.tree k) (hv : value.Holds table v)
    (hb : b.operands = ⟨v :: k :: os⟩) (hf : floorOf b.operators.toList ≤ os.length) :
    Ends (apply p) b
      (fun _ b' => ∃ o, Element.Holds table ⟨some key, value⟩ o ∧
        b' = { b with operands := ⟨o :: os⟩ }) (fun _ _ => False) := by
  have hkind : p.op.kind = .colon := by rw [hp]; rfl
  have htakes : Takes noNames p [k, v] := by
    refine .joining (by rw [hkind]; rfl) ?_
    rw [hkind, hplain]
    exact .colon
  refine (ends_apply hf htakes hb).mono ?_ ?_
  · rintro _ b' ⟨-, o, hbuilt, rfl⟩
    refine ⟨o, ?_, by simp [Pending.leave, hplain]⟩
    cases hbuilt with
    | binary hkind' => cases hkind.symm.trans hkind'
    | assignLocal hextra => cases hplain.symm.trans hextra
    | assignBinding hextra => cases hplain.symm.trans hextra
    | stream hkind' => cases hkind.symm.trans hkind'
    | sequence hkind' => cases hkind.symm.trans hkind'
    | pair =>
      constructor
      · exact ⟨by simp [Arm.type?, hk.type], by simp [hv.type]⟩
      · rfl
      · exact hk.node
      · intro _
        exact congrArg some hv.node
  · intro e b' hr
    cases hr with
    | @pair _ o ho hpair =>
      simp only [List.mem_cons, List.not_mem_nil, or_false] at ho
      rcases ho with rfl | rfl
      · exact hk.not_isPair hpair
      · exact hv.not_isPair hpair
    | binary hkind' => cases hkind.symm.trans hkind'

/-- The element has been read. The colon of an entry waits for what follows the value. -/
def Element.Unwinds (table left : List IdentKey) (below : Below) (e : Element)
    (b : Bench ε) : Prop :=
  match e.key with
  | none => Climbing.Unwinds table left below e.value b
  | some key => ∃ p k, ∃ hp : p.op = .pairing, p.extra = .plain ∧
      Climbing.Holds table key.chain.tree k ∧
      Climbing.Unwinds table left (below.under p (.inr hp) [k]) e.value b

/-- Down to the bracket the element becomes one fragment. -/
theorem Element.Unwinds.reduceToContainer {e : Element}
    (h : e.Unwinds table left (bracket.below opened os) b) {Q : Unit → Bench ε → Prop}
    (next : ∀ o b', e.Holds table o → Rests table left (bracket.below opened os) o b' → Q () b')
    (refuse : ¬ e.Typed → ∀ e' b', Refusal e' → E e' b') :
    Ends Parse.reduceToContainer b Q E := by
  obtain ⟨key, value⟩ := e
  have hq (f : Frame) (p : Pending) (_ : f.Tight) (hp : p.op = f.row) :
      (!p.op.kind.isContainer) = true := by
    rw [hp, f.isContainer_row]
    rfl
  have hseen (p : Pending) (hp : p.op = .question) (_ : p.extra = .colonSeen) :
      (!p.op.kind.isContainer) = true := by
    rw [hp]
    rfl
  have hrefuse (hnone : value.type? = none) : ∀ e' b', Refusal e' → E e' b' :=
    refuse fun htyped => by simp [Element.Typed, hnone] at htyped
  unfold Parse.reduceToContainer Parse.reduceWhile
  rw [ends_bind, ends_get]
  cases key with
  | none =>
    refine Climbing.Unwinds.applyWhile h hq hseen ?_ hrefuse
    intro o b' ho hrests
    rw [ends_applyWhile_stay (Bracket.stays (by simp))]
    exact next o b' ho.element hrests
  | some key =>
    obtain ⟨p, k, hp, hplain, hk, hvalue⟩ := h
    refine hvalue.applyWhile hq hseen ?_ hrefuse
    intro v b' hv hrests
    have hqp : (!p.op.kind.isContainer) = true := by
      rw [hp]
      rfl
    refine (ends_applyWhile_top hqp (bracket.below opened os).operators).mpr ?_
    refine (ends_apply_pairing hp hplain hk hv
      (b := { b' with operators := ⟨(bracket.below opened os).operators⟩ }) hrests.operands
      (bracket.below opened os).floor).mono ?_ fun _ _ he => he.elim
    rintro _ b'' ⟨o, ho, rfl⟩
    rw [ends_applyWhile_stay (Bracket.stays (by simp))]
    exact next o _ ho ⟨hrests.mentions, rfl, rfl⟩

/-- Right inside a bracket a colon makes the entry of a map. -/
theorem Spans.pairing {key : Arm} (h : Spans table left (bracket.below opened os) key b)
    (span : Span) (base : Nat) (at_ : Cursor)
    (next : ∀ p k b', ∀ hp : p.op = .pairing, p.extra = .plain →
      Holds table key.chain.tree k →
      Waits table left ((bracket.below opened os).under p (.inr hp) [k]) [] b' →
      Ending base .operand lexemes b' Q E)
    (refuse : key.type? = none → ∀ e b', Refusal e → E e b') :
    Ends (operator ":" span base at_) b
      (fun r b' => r.2 = at_ ∧ Ending base r.1 lexemes b' Q E) E := by
  rw [ends_operator_colon, Parse.colon, Parse.reduceFor, Parse.reduceWhile]
  simp only [ends_bind, ends_get]
  refine h.applyWhile (fun f p hf hp => hf.yieldsTo hp (.inr rfl)) ?_ refuse
  intro k b' hk hrests
  rw [ends_applyWhile_stay (Bracket.stays fun p => Operator.yieldsTo_container)]
  have hcontainer := bracket.isContainer_row
  have hliteral : bracket.row.kind = .listLiteral ∨ bracket.row.kind = .setLiteral := by
    cases bracket <;> simp [Bracket.row]
  simp only [hrests.operators, openContainer?, Bracket.below, List.takeWhile_cons, hcontainer,
    Bool.not_true, Bool.false_eq_true, if_false, List.any_nil, List.find?_cons, hliteral, if_true,
    ends_pushOperator]
  refine ⟨trivial, next { op := .pairing, span, base := b'.operands.size } k _ rfl rfl hk
    ⟨hrests.mentions, ?_⟩⟩
  simp only [Stack.toList_push, hrests.operands]
  exact .nil

theorem Element.ending (e : Element)
    (h : Waits table (e.keys ++ left) (bracket.below opened os) [] b)
    (next : ∀ b', e.Unwinds table left (bracket.below opened os) b' →
      Ending base .operator lexemes b' Q E)
    (refuse : ¬ e.Typed → ∀ e' b', Refusal e' → E e' b') :
    Ending base .operand (e.lexemes ++ lexemes) b Q E := by
  obtain ⟨key, value⟩ := e
  have hrefuse (hnone : value.type? = none) : ∀ e' b', Refusal e' → E e' b' :=
    refuse fun htyped => by simp [Element.Typed, hnone] at htyped
  cases key with
  | none => exact value.ending h next hrefuse
  | some key =>
    have hkey (hnone : key.type? = none) : ∀ e' b', Refusal e' → E e' b' :=
      refuse fun htyped => by simp [Element.Typed, hnone] at htyped
    simp only [Element.keys, List.append_assoc] at h
    simp only [Element.lexemes, List.append_assoc, List.cons_append]
    refine key.ending h ?_ hkey
    intro b₁ hspans
    refine ending_operator (lexes_mark (by decide) _) fun span at' => ?_
    refine hspans.pairing span base at' ?_ hkey
    intro p k b₂ hp hplain hk hwaits
    refine value.ending hwaits ?_ hrefuse
    intro b₃ hvalue
    exact next b₃ ⟨p, k, hp, hplain, hk, hvalue⟩

/-! ## Commas and closers -/

/-- A comma ends the element before it. -/
theorem Element.Unwinds.comma {e : Element}
    (h : e.Unwinds table left (bracket.below opened os) b) (span : Span)
    (next : ∀ o b', e.Holds table o → Waits table left (bracket.below opened (o :: os)) [] b' →
      Ending base .operand lexemes b' Q E)
    (refuse : ¬ e.Typed → ∀ e' b', Refusal e' → E e' b') :
    Ends (Parse.comma span) b (fun _ b' => Ending base .operand lexemes b' Q E) E := by
  unfold Parse.comma
  rw [ends_bind]
  refine h.reduceToContainer ?_ refuse
  intro o b' ho hrests
  have hvariadic : bracket.row.kind.isVariadic := by cases bracket <;> rfl
  rw [ends_bind, ends_get]
  simp only [hrests.operators, hrests.operands, Bracket.below, Stack.peek?, List.head?_cons,
    hvariadic, Stack.size, List.length_cons, Nat.sub_zero, Bool.not_true, Bool.false_eq_true,
    if_false, ne_eq, not_true, ends_set]
  exact next o _ ho ⟨hrests.mentions, .nil⟩

/-- The closer makes one fragment of all elements. -/
theorem Element.Unwinds.close {e : Element}
    (h : e.Unwinds table left (bracket.below opened os) b) (span : Span) (base : Nat)
    (at_ : Cursor) {node : Node}
    (hnode : ∀ o, e.Holds table o → collection? bracket.row.kind (o :: os).reverse = some node)
    (next : ∀ held o b', e.Holds table held → o.node = node → o.type = .object →
      Rests table left .empty o b' → Ending base .operator lexemes b' Q E)
    (refuse : ¬ e.Typed → ∀ e' b', Refusal e' → E e' b') :
    Ends (Parse.operator bracket.closer span base at_) b
      (fun r b' => r.2 = at_ ∧ Ending base r.1 lexemes b' Q E) E := by
  have hcloser : Operator.closers.contains bracket.closer = true := by cases bracket <;> rfl
  have hcloses : bracket.row.kind.closer? = some bracket.closer := by cases bracket <;> rfl
  have hvariadic : bracket.row.kind.isVariadic := by cases bracket <;> rfl
  simp only [Parse.operator, hcloser, if_true, ends_bind, ends_pure, Parse.close]
  refine h.reduceToContainer ?_ refuse
  intro o b' ho hrests
  -- Everything above the base of the bracket belongs to it.
  have hmany : (b'.operands.popMany? (b'.operands.size - 0)).getD ([], b'.operands) =
      ((o :: os).reverse, ⟨[]⟩) := by
    simp [hrests.operands, Bracket.below, Stack.popMany?, Stack.size]
  rw [ends_get]
  simp only [hrests.operators, Bracket.below, Stack.pop?, hcloses, ne_eq, not_true, if_false, hmany,
    hvariadic, Bool.not_true, Bool.false_eq_true, and_false, ends_bind, ends_set]
  have hclosed (pending : Pending) (hp : pending.op = bracket.row) (b₁ : Bench ε) {Q' E'} :
      Ends (closeContainer pending (o :: os).reverse span) b₁ Q' E' ↔
        Q' () { b₁ with
          operands := b₁.operands.push (.object node (pending.span.merge span)) } := by
    have hcollection := hnode o ho
    unfold closeContainer
    rw [hp]
    cases bracket <;> simp only [Bracket.row] at hcollection ⊢ <;> rw [hcollection] <;> rfl
  rw [hclosed _ rfl]
  exact ⟨trivial, next o (.object node _) _ ho rfl rfl ⟨hrests.mentions, rfl, rfl⟩⟩

/-! ## Elements between commas -/

theorem typed_of_holds {elements : List Element}
    (h : List.Forall₂ (Element.Holds table) elements os) : ∀ e ∈ elements, e.Typed := by
  induction h with
  | nil => simp
  | cons ho _ ih => exact List.forall_mem_cons.mpr ⟨ho.typed, ih⟩

/-- From the element that has been read last, the rest of the literal is read: with all elements as
fragments, the closer makes the node of the literal. -/
theorem ending_others (all : List Element) {node : Node}
    (hnode : ∀ os, List.Forall₂ (Element.Holds table) all os →
      collection? bracket.row.kind os = some node)
    (next : ∀ o b', (∀ e ∈ all, e.Typed) → o.node = node → o.type = .object →
      Rests table [] .empty o b' → Ending base .operator [] b' Q E)
    (refuse : ¬ (∀ e ∈ all, e.Typed) → ∀ e' b', Refusal e' → E e' b')
    (others : List Element) {last : Element} (done : List Element)
    (hall : all = done.reverse ++ last :: others)
    (hdone : List.Forall₂ (Element.Holds table) done os)
    (h : last.Unwinds table (others.flatMap (·.keys)) (bracket.below opened os) b) :
    Ending base .operator (othersLexemes others ++ [bracket.closer]) b Q E := by
  have hrefuse (e : Element) (he : e ∈ all) (hnot : ¬ e.Typed) :
      ∀ e' b', Refusal e' → E e' b' := refuse fun htyped => hnot (htyped e he)
  induction others generalizing last done os b with
  | nil =>
    have hmark : bracket.closer ∈ marks := by cases bracket <;> decide
    have hcomma : bracket.closer ≠ "," := by cases bracket <;> decide
    have hlexes := lexes_mark hmark []
    rw [if_neg hcomma] at hlexes
    have held {o : Operand} (ho : last.Holds table o) :
        List.Forall₂ (Element.Holds table) all (o :: os).reverse := by
      rw [hall, List.reverse_cons]
      exact List.rel_append (List.forall₂_reverse_iff.mpr hdone) (.cons ho .nil)
    refine ending_operator hlexes fun span at' => ?_
    refine h.close span base at' (fun o ho => hnode _ (held ho)) ?_
      (hrefuse last (by simp [hall]))
    intro o o' b' ho
    exact next o' b' (typed_of_holds (held ho))
  | cons e others ih =>
    simp only [othersLexemes, List.flatMap_cons, List.cons_append, List.append_assoc]
    refine ending_comma fun span => ?_
    refine h.comma span ?_ (hrefuse last (by simp [hall]))
    intro o b₁ ho hwaits
    rw [List.flatMap_cons] at hwaits
    refine e.ending hwaits ?_ (hrefuse e (by simp [hall]))
    intro b₂ hunwinds
    exact ih (last :: done) (by simp [hall]) (.cons ho hdone) hunwinds

end TagExpr.Climbing

namespace TagExpr

namespace Climbing

open Parse

variable {ε : Type} {table : List IdentKey} {b : Bench ε} {base : Nat}

/-! ## Texts of lexemes -/

/-- In every scope that means nothing by the names of the table, the text is parsed as the tree
`node` of the static type, with these names. Without a static type, an operator refuses an operand
of it. -/
def Parses (ε : Type) (text : String) (node : Node) (type? : Option OperandType)
    (table : List IdentKey) : Prop :=
  ∀ (offset : Nat) (scope : TemplateScope ε),
    (∀ name, .property name ∈ table → Meaningless scope name) →
    match type? with
    | some type => ∃ p : Parsed ε, (parse text offset scope).1 = .ok p ∧
        p.node = node ∧ p.identifiers = table ∧ p.type = type
    | none => ∃ e, (parse text offset scope).1 = .error e ∧ Refusal e

/-- The run ends with the fragment of the tree, or it fails where an operator refuses an operand. -/
def Arrives (node : Node) (type? : Option OperandType) (table : List IdentKey) (o : Operand)
    (b : Bench ε) : Prop :=
  o.node = node ∧ type? = some o.type ∧ b.tables.identifiers = table

/-- Where the parse of a text begins. -/
abbrev begun (scope : TemplateScope ε) : Bench ε := { scope, tables := {} }

/-- The parse of a text of lexemes ends as the run over the lexemes does. -/
theorem parses_of_ending {lexemes : List String} {node : Node} {type? : Option OperandType}
    (hne : lexemes ≠ []) (hdef : Signature.definition? (textOf lexemes).toList = none)
    (h : ∀ base (scope : TemplateScope ε),
      (∀ name, .property name ∈ table → Meaningless scope name) →
      Ending base .operand lexemes (begun scope) (Arrives node type? table)
        (fun e _ => Refusal e ∧ type? = none)) :
    Parses ε (textOf lexemes) node type? table := by
  intro offset scope hnames
  have hparse := parse_run (textOf lexemes) offset scope
  have hnone : definitionOf? scope.extensions (textOf lexemes) = none := by
    rw [definitionOf?, hdef]
    split <;> rfl
  have hfirst : firstRound? (textOf lexemes) offset scope =
      some (.start scope {} offset (Cursor.start (textOf lexemes).toList)) := by
    rw [firstRound?, hnone]
  have hends := h offset scope hnames _ _ (faces_text hne) (Nat.lt_succ_self _)
  rw [hfirst] at hparse
  cases hrun : (Round.start scope {} offset (Cursor.start (textOf lexemes).toList)).run with
  | ok o b =>
    obtain ⟨hnode, htype, htable⟩ := hends.ok hrun
    simp only [hrun] at hparse
    obtain ⟨p, heq, hp⟩ := hparse
    rw [htype]
    exact ⟨p, by rw [heq], hp.node.trans hnode, hp.identifiers.trans htable, hp.type⟩
  | error e b =>
    obtain ⟨hrefusal, hnone⟩ := hends.error hrun
    simp only [hrun] at hparse
    rw [hnone]
    exact ⟨e, hparse, hrefusal⟩

/-- At the end of the text all operators are applied, and one fragment is left. -/
theorem ends_finish {node : Node} {type? : Option OperandType} {span : Span}
    {E : ParseError → Bench ε → Prop}
    (h : Ends (applyWhile (fun _ => true) b.operators.toList) b
      (fun _ b' => ∃ o, Rests table [] .empty o b' ∧ ¬ o.isPair ∧ o.node = node ∧
        type? = some o.type) E) :
    Ends (finish span) b (Arrives node type? table) E := by
  unfold Parse.finish Parse.reduceWhile
  rw [ends_bind, ends_bind, ends_get]
  refine h.mono ?_ fun _ _ he => he
  rintro _ b' ⟨o, hrests, hpair, hnode, htype⟩
  rw [ends_bind, ends_get]
  simp only [hrests.operands, Below.empty, hpair, Bool.false_eq_true, if_false]
  exact ⟨hnode, htype, hrests.mentions.mentions⟩

/-- The names of a text are waited for at its beginning. -/
theorem waits_begun {keys : List IdentKey} {scope : TemplateScope ε}
    (h : ∀ name, .property name ∈ tableOf keys → Meaningless scope name) :
    Waits (tableOf keys) keys .empty [] (begun scope) :=
  ⟨⟨fun name hname => h name (mem_mentions hname []), rfl, rfl, rfl⟩, .nil⟩

/-! ## Ternaries -/

theorem Arm.exists_lexemes (a : Arm) : ∃ lexemes,
    a.lexemes = String.ofList a.head.lexeme :: lexemes ∧
    ∀ l ∈ lexemes.head?, ∃ op : BinaryOp, l = op.symbol := by
  refine ⟨_, rfl, ?_⟩
  cases htail : a.tail with
  | nil => simp [Arm.chain, Tail.bare, htail]
  | cons link tail =>
    intro l hl
    refine ⟨link.1, ?_⟩
    simpa [Arm.chain, Tail.bare, htail] using hl.symm

/-- The lexemes begin with an operand, and an operator follows it if anything does. -/
theorem Ternary.exists_lexemes (t : Ternary) : ∃ (a : Atom) (lexemes : List String),
    t.lexemes = String.ofList a.lexeme :: lexemes ∧
    ∀ l ∈ lexemes.head?, l = "?" ∨ ∃ op : BinaryOp, l = op.symbol := by
  cases t with
  | arm a =>
    obtain ⟨lexemes, heq, hhead⟩ := a.exists_lexemes
    exact ⟨a.head, lexemes, heq, fun l hl => .inr (hhead l hl)⟩
  | choice condition yes no =>
    obtain ⟨lexemes, heq, hhead⟩ := condition.exists_lexemes
    refine ⟨condition.head, lexemes ++ "?" :: (yes.lexemes ++ ":" :: no.lexemes), ?_, ?_⟩
    · rw [Ternary.lexemes, heq, List.cons_append]
    · cases lexemes with
      | nil =>
        intro l hl
        cases hl
        exact .inl rfl
      | cons next lexemes => exact fun l hl => .inr (hhead l hl)

theorem definition?_ternary (t : Ternary) : Signature.definition? t.text.toList = none := by
  obtain ⟨a, lexemes, heq, hhead⟩ := t.exists_lexemes
  rw [Ternary.text, heq, toList_textOf, String.toList_ofList]
  exact definition?_atom a hhead

/-- The run over a ternary arrives at its tree. -/
theorem Ternary.arrives (t : Ternary) (base : Nat) (scope : TemplateScope ε)
    (hnames : ∀ name, .property name ∈ t.table → Meaningless scope name) :
    Ending base .operand t.lexemes (begun scope) (Arrives (t.node t.table) t.type? t.table)
      (fun e _ => Refusal e ∧ t.type? = none) := by
  have hwaits : Waits t.table (t.keys ++ []) .empty [] (begun scope) := by
    rw [List.append_nil]
    exact waits_begun hnames
  rw [← List.append_nil t.lexemes]
  refine t.ending hwaits ?_ fun hnone e _ hr => ⟨hr, hnone⟩
  intro b hunwinds
  refine ending_finish fun span => ends_finish ?_
  refine hunwinds.applyWhile (fun _ _ _ _ => rfl) (fun _ _ _ => rfl) ?_
    fun hnone e _ hr => ⟨hr, hnone⟩
  intro o b' ho hrests
  rw [ends_applyWhile_stay (by simp [Below.empty])]
  exact ⟨o, hrests, ho.not_isPair, ho.node, ho.type⟩

/-- **The parse of a ternary is the tree of its derivation.** -/
theorem parses_ternary (t : Ternary) : Parses ε t.text (t.node t.table) t.type? t.table := by
  obtain ⟨a, lexemes, heq, -⟩ := t.exists_lexemes
  exact parses_of_ending (by simp [heq]) (definition?_ternary t) t.arrives

/-! ## Literals -/

/-- Fragments of values make a list or a set. -/
theorem holds_values (ts : List Ternary) {os : List Operand}
    (h : List.Forall₂ (Element.Holds table) (ts.map fun t => ⟨none, t⟩) os) :
    os.all (!·.isPair) ∧ os.map (·.node) = ts.map (·.node table) := by
  rw [List.forall₂_map_left_iff] at h
  induction h with
  | nil => exact ⟨rfl, rfl⟩
  | cons ho _ ih =>
    obtain ⟨hplain, hnodes⟩ := ih
    refine ⟨?_, ?_⟩
    · simp [ho.isPair, hplain]
    · simp [ho.node, hnodes]

/-- Fragments of entries make a map. -/
theorem holds_entries (es : List (Arm × Ternary)) {os : List Operand}
    (h : List.Forall₂ (Element.Holds table) (es.map fun (key, value) => ⟨some key, value⟩) os) :
    os.all (·.isPair) ∧
      os.filterMap (fun o => o.pairValue.map (o.node, ·)) =
        es.map fun (key, value) => (key.node table, value.node table) := by
  rw [List.forall₂_map_left_iff] at h
  induction h with
  | nil => exact ⟨rfl, rfl⟩
  | cons ho _ ih =>
    obtain ⟨hpairs, hnodes⟩ := ih
    refine ⟨?_, ?_⟩
    · simp [ho.isPair, hpairs]
    · simp [ho.node, ho.pairValue rfl, hnodes]

theorem collection?_node (c : Collection) {os : List Operand}
    (h : List.Forall₂ (Element.Holds table) c.contents.elements os) :
    collection? c.bracket.row.kind os = some (c.node table) := by
  obtain ⟨bracket, contents⟩ := c
  cases contents with
  | values head tail =>
    obtain ⟨hplain, hnodes⟩ := holds_values (head :: tail) h
    unfold collection?
    rw [if_pos hplain, hnodes]
    cases bracket <;> rfl
  | entries head tail =>
    obtain ⟨hpairs, hnodes⟩ := holds_entries (head :: tail) h
    have hnot : ¬ os.all (!·.isPair) := by
      cases h with
      | cons ho _ => simp [ho.isPair, Contents.first]
    unfold collection?
    rw [if_neg hnot, if_pos hpairs, hnodes]
    cases bracket <;> rfl

/-- A literal is no definition: it begins with a bracket. -/
theorem definition?_collection (c : Collection) :
    Signature.definition? c.text.toList = none := by
  rw [Collection.text, Collection.lexemes, toList_textOf]
  refine definition?_of_name? ?_
  cases c.bracket <;> rfl

/-- The run over a literal arrives at its tree. -/
theorem Collection.arrives (c : Collection) (base : Nat) (scope : TemplateScope ε)
    (hnames : ∀ name, .property name ∈ c.table → Meaningless scope name) :
    Ending base .operand c.lexemes (begun scope) (Arrives (c.node c.table) c.type? c.table)
      (fun e _ => Refusal e ∧ c.type? = none) := by
  have hrefuse (hnot : ¬ ∀ e ∈ c.contents.elements, e.Typed) (e' : ParseError) (_ : Bench ε)
      (hr : Refusal e') : Refusal e' ∧ c.type? = none := ⟨hr, if_neg hnot⟩
  have hcloser : Operator.closers.contains c.bracket.opener = false := by
    cases c.bracket <;> rfl
  have hrow : Operator.findPrefix? c.bracket.opener = some c.bracket.row := by
    cases c.bracket <;> rfl
  refine ending_operand (lexes_bracket c.bracket _) (by simp) fun nested span => ?_
  simp only [Parse.operand, hcloser, hrow, Bool.false_eq_true, if_false, ends_bind,
    ends_pushOperator, ends_pure]
  have hwaits : Waits c.table (c.contents.first.keys ++ c.contents.others.flatMap (·.keys))
      (c.bracket.below span []) []
      { begun scope with operators := ⟨[{ op := c.bracket.row, span, base := 0 }]⟩ } :=
    ⟨(waits_begun hnames).mentions, .nil⟩
  refine c.contents.first.ending hwaits ?_ fun hnot => hrefuse fun htyped =>
    hnot (htyped _ (List.mem_cons_self ..))
  intro b hunwinds
  refine ending_others c.contents.elements (fun os => collection?_node c) ?_ hrefuse
    c.contents.others [] rfl .nil hunwinds
  intro o b' htyped hnode htype hrests
  refine ending_finish fun span => ends_finish ?_
  rw [hrests.operators, ends_applyWhile_stay (by simp [Below.empty])]
  have hpair : ¬ o.isPair := by simp [Operand.isPair, htype]
  have htype' : c.type? = some o.type := by rw [Collection.type?, if_pos htyped, htype]
  exact ⟨o, hrests, hpair, hnode, htype'⟩

/-- **The parse of a literal is the tree of its elements.** -/
theorem parses_collection (c : Collection) : Parses ε c.text (c.node c.table) c.type? c.table :=
  parses_of_ending (by simp [Collection.lexemes]) (definition?_collection c) c.arrives

end Climbing

/-- **Ternaries nest like brackets.** A ternary is parsed as the tree of its derivation, whatever
ternaries are its branches, and so are ternaries in list and set literals and behind the keys of a
map. A text whose question marks outnumber its colons at top level or directly inside some container
is rejected. -/
theorem ternaries_nest (ε : Type) :
    (∀ t : Climbing.Ternary, Climbing.Parses ε t.text (t.node t.table) t.type? t.table) ∧
    (∀ c : Climbing.Collection, Climbing.Parses ε c.text (c.node c.table) c.type? c.table) ∧
    ∀ (text : String) (offset : Nat) (scope : TemplateScope ε),
      Mark.Outnumbered (marksOf scope.extensions text) →
      ∃ e, (parse text offset scope).1 = .error e :=
  ⟨Climbing.parses_ternary, Climbing.parses_collection, Parse.parse_outnumbered⟩

/-- A ternary in the first branch of another one, and a list where a colon is missing. -/
theorem ternaries_nest_of_branch :
    (∀ name, .property name ∈ [IdentKey.property "a"] →
      Climbing.Meaningless (TemplateScope.fresh (ε := Unit)) name) ∧
    (∃ p : Parsed Unit, (parse "a ? a ? a : a : a" 0 .fresh).1 = .ok p ∧
      p.node = .ternary (.identifier 0 .unstated)
        (.ternary (.identifier 0 .unstated) (.identifier 0 .unstated) (.identifier 0 .unstated))
        (.identifier 0 .unstated)) ∧
    Mark.Outnumbered (marksOf .all "[ a ? b ]") ∧
      ∃ e, (parse (ε := Unit) "[ a ? b ]" 0 .fresh).1 = .error e := by
  have hnames (name : String) (_ : .property name ∈ [IdentKey.property "a"]) :
      Climbing.Meaningless (TemplateScope.fresh (ε := Unit)) name := ⟨rfl, rfl⟩
  have hmarks : Mark.Outnumbered (marksOf .all "[ a ? b ]") := by decide
  refine ⟨hnames, ?_, hmarks, (ternaries_nest Unit).2.2 "[ a ? b ]" 0 .fresh hmarks⟩
  let a : Climbing.Arm := ⟨.name ⟨'a', [], by decide, by simp, by decide⟩, []⟩
  let t : Climbing.Ternary := .choice a (.choice a (.arm a) (.arm a)) (.arm a)
  have htext : t.text = "a ? a ? a : a : a" := by cbv
  have htype : t.type? = some .object := by cbv
  have hreads := (ternaries_nest Unit).1 t 0 .fresh hnames
  rw [htype, htext] at hreads
  obtain ⟨p, hp, hnode, -⟩ := hreads
  exact ⟨p, hp, hnode.trans (by cbv)⟩

end TagExpr
