import TagExpr.Proofs.Parse.Leaves
import TagExpr.Proofs.Scoping.Bindings
import TagExpr.Proofs.Typing.Static

/-!
# Features that are switched off

Each feature of the language has its gate where a token brings it in, and what stands in the tree of
a fragment has come through the gate (`Node.Backed`). A binding comes from the scope as well, where
an earlier text may have declared it; while bindings are switched off no text does, whatever happens
to the scope (`TemplateScope.Bindless`). Without interpolation each string literal of the text is
one constant of the tree, its text without the escapes (`parse_literals`). So nothing in an
expression is of a feature that is switched off (`disabled_features_unreachable`).
-/

namespace TagExpr

open Parse

variable {ε : Type}

/-! ## What has come through the gates -/

/-- The feature that the top of the tree belongs to is switched on, and a binding is declared. -/
def Node.Backed (N : Names) : Node → Prop
  | .annotated _ _ => N.extensions.annotations
  | .binding template slot | .assignBinding template slot _ => slot < (N.bindings template).length
  | .named _ _ | .recurse _ => N.extensions.namedExpressions
  | .concat _ => N.extensions.interpolation
  | _ => True

namespace Parse

variable {N : Names} {o : Operand} {os : List Operand} {w : List Word} {node : Node}

theorem Callee.backed {name : String} {args : List Node} (h : Callee N name args node) :
    node.Backed N := by
  cases h with
  | named gate _ | recurse gate _ => exact gate

theorem Bare.backed {name : String} (h : Bare N name node) : node.Backed N := by
  cases h with
  | binding declared => exact (List.getElem?_eq_some_iff.1 declared).1
  | named callee => exact callee.backed
  | localVar | property => trivial

theorem Simple.backed {word : Word} (h : Simple N o word) : o.node.Backed N := by
  cases h with
  | annotated _ _ gate => exact gate
  | bare _ hb => exact hb.backed
  | _ => trivial

/-- An assignment is to a binding that is there, either mentioned before it or declared by it. -/
theorem Target.backed {target : Operand} {template : TemplateId} {slot : Nat}
    (h : Target N target (.assignBinding template slot)) (ht : target.node.Backed N) :
    slot < (N.bindings template).length := by
  cases h with
  | binding mentioned =>
    rw [mentioned] at ht
    exact ht
  | bound _ declared => exact (List.getElem?_eq_some_iff.1 declared).1

theorem Built.backed {p : Pending} {args : List Operand} (h : Built N p args o)
    (ha : ∀ arg ∈ args, arg.node.Backed N) : o.node.Backed N := by
  cases h with
  | @pair key => exact ha key List.mem_cons_self
  | @assignBinding template slot target _ extra written =>
    rw [extra] at written
    exact written.backed (ha target List.mem_cons_self)
  | sequence =>
    unfold joinSequence
    split <;> trivial
  | _ => trivial

theorem Closed.backed {p : Pending} {close : Span} {receivers elements : List Operand}
    (h : Closed N p close receivers elements o) (he : ∀ e ∈ elements, e.node.Backed N) :
    o.node.Backed N := by
  cases h with
  | @group element => exact he element List.mem_cons_self
  | collection _ made =>
    unfold collection? at made
    split at made
    case isTrue =>
      cases made
      split <;> trivial
    case isFalse =>
      split at made <;> cases made
      trivial
  | named _ _ callee => exact callee.backed
  | annotated _ _ gate => exact gate
  | lookup | call | method => trivial

/-- What is on top of a derived fragment has come through its gate. -/
theorem Derives.backed (h : Derives N os w) : ∀ o ∈ os, o.node.Backed N := by
  induction h with
  | nil => exact List.forall_mem_nil _
  | cons _ _ iho ihos => exact List.forall_mem_cons.2 ⟨iho _ List.mem_cons_self, ihos⟩
  | word hs => exact List.forall_mem_singleton.2 hs.backed
  | concat _ gate => exact List.forall_mem_singleton.2 gate
  | member => exact List.forall_mem_singleton.2 trivial
  | built _ _ hb ih => exact List.forall_mem_singleton.2 (hb.backed ih)
  | closed _ _ _ hc _ ihe => exact List.forall_mem_singleton.2 (hc.backed ihe)

/-- And so has everything in it. -/
theorem Derives.backed_of_part (h : Derives N [o] w) {n : Node} (part : n.Part o.node) :
    n.Backed N := by
  obtain ⟨o', w', derived, -, rfl⟩ := h.made o List.mem_cons_self n (.inl part)
  exact derived.backed o' List.mem_cons_self

end Parse

/-! ## Scopes without bindings -/

namespace TemplateScope

variable {s : TemplateScope ε}

theorem extensions_act (s : TemplateScope ε) (action : ScopeAction ε) :
    (s.act action).extensions = s.extensions := by
  obtain ⟨names, named, inner, acted, -⟩ := s.exists_of_act action
  rw [acted]
  exact declareAll_extensions s names

theorem extensions_acts (s : TemplateScope ε) (actions : List (ScopeAction ε)) :
    (s.acts actions).extensions = s.extensions := by
  induction actions generalizing s with
  | nil => rfl
  | cons action actions ih => exact (ih (s.act action)).trans (s.extensions_act action)

/-- No binding can be declared, and none has been. -/
structure Bindless (s : TemplateScope ε) : Prop where
  off : s.extensions.templateBindings = false
  none : ∀ id, s.bindingNames id = []

/-- **One action.** With bindings switched off no text declares any. -/
theorem Bindless.act (h : s.Bindless) (action : ScopeAction ε) : (s.act action).Bindless := by
  refine ⟨(congrArg Extensions.templateBindings (s.extensions_act action)).trans h.off, ?_⟩
  obtain ⟨names, named, inner, acted, gate⟩ := s.exists_of_act action
  have undeclared : names = [] := by
    by_contra declared
    have on := gate declared
    rw [h.off] at on
    cases on
  intro id
  rw [acted, undeclared]
  exact h.none id

/-- **All actions.** -/
theorem Bindless.acts (h : s.Bindless) (actions : List (ScopeAction ε)) :
    (s.acts actions).Bindless := by
  induction actions generalizing s with
  | nil => exact h
  | cons action actions ih => exact ih (h.act action)

theorem bindless_fresh {extensions : Extensions} (off : extensions.templateBindings = false) :
    (fresh extensions : TemplateScope ε).Bindless :=
  ⟨off, fun _ => rfl⟩

end TemplateScope

/-! ## String literals -/

/-- What stands between the quotes of a string literal. -/
def TokenKind.quoted? : TokenKind → Option (List Char)
  | .str raw _ => some raw
  | _ => none

/-- The string literals from a place of a text to its end as they are written, of at most `fuel`
tokens. -/
def literals : Nat → LexMode → Cursor → List (List Char)
  | 0, _, _ => []
  | fuel + 1, mode, at_ =>
    match Token.next mode at_ with
    | .error _ => []
    | .ok (token, after) =>
      match mode with
      | .operand => token.kind.quoted?.toList ++ literals fuel token.kind.modeAfter after
      | _ =>
        match token.kind with
        | .comma => literals fuel .operand after
        | .operator symbol =>
          let (_, mode, after) := operatorReach symbol after
          literals fuel mode after
        | _ => []

/-- The string literals of the expression in a text. -/
def literalsOf (extensions : Extensions) (text : String) : List (List Char) :=
  let at_ := bodyOf extensions text
  literals (at_.rest.length + 1) .operand at_

/-- The text is what the literal stands for once its escapes are replaced. -/
def Unescaped (raw : List Char) (text : String) : Prop := Literal.unescape raw = .ok text.toList

def Literal.text? : Literal → Option String
  | .str text => some text
  | _ => none

def Word.text? : Word → Option String
  | .literal value => value.text?
  | _ => none

def Leaf.text? : Leaf → Option String
  | .literal value => value.text?
  | _ => none

/-! ## The texts of a tree -/

/-- The texts among the constants of a tree, from left to right. -/
def Node.texts (n : Node) : List String := n.leaves.filterMap Leaf.text?

namespace Node

/-- The leaves of a tree are those of its children and of its top. -/
theorem mem_leaves_of_child {root child : Node} (hc : child ∈ root.children) {leaf : Leaf}
    (h : leaf ∈ child.leaves) : leaf ∈ root.leaves := by
  have item {items : List Node} (hc : child ∈ items) : leaf ∈ leavesOfList items :=
    mem_leavesOfList.2 ⟨child, hc, h⟩
  cases root with
  | literal | regex | current | internal | localVar | binding | identifier => cases hc
  | call | named | recurse | annotated => exact List.mem_cons_of_mem _ (item hc)
  | concat | list | set | sequence => exact item hc
  | map entries =>
    obtain ⟨entry, member, hc⟩ := List.mem_flatMap.1 hc
    obtain ⟨key, value⟩ := entry
    have own : leaf ∈ leavesOfEntries entries := by
      refine mem_leavesOfEntries.2 ⟨(key, value), member, ?_⟩
      rcases List.mem_cons.1 hc with rfl | hc
      · exact List.mem_append_left _ h
      · rw [List.mem_singleton.1 hc] at h
        exact List.mem_append_right _ h
    cases entries with
    | nil => cases member
    | cons => exact own
  | unary =>
    rw [List.mem_singleton.1 hc] at h
    exact h
  | member =>
    rw [List.mem_singleton.1 hc] at h
    exact List.mem_append_left _ h
  | assignLocal | assignBinding =>
    rw [List.mem_singleton.1 hc] at h
    exact List.mem_cons_of_mem _ h
  | index | binary | stream =>
    rcases List.mem_cons.1 hc with rfl | hc
    · exact List.mem_append_left _ h
    · rw [List.mem_singleton.1 hc] at h
      exact List.mem_append_right _ h
  | method =>
    rcases List.mem_cons.1 hc with rfl | hc
    · exact List.mem_append_left _ h
    · exact List.mem_append_right _ (List.mem_cons_of_mem _ (item hc))
  | ternary =>
    rcases List.mem_cons.1 hc with rfl | hc
    · exact List.mem_append_left _ (List.mem_append_left _ h)
    rcases List.mem_cons.1 hc with rfl | hc
    · exact List.mem_append_left _ (List.mem_append_right _ h)
    · rw [List.mem_singleton.1 hc] at h
      exact List.mem_append_right _ h

/-- A text that stands somewhere in the tree is among its texts. -/
theorem mem_texts_of_part {text : String} {root : Node}
    (h : (Node.literal (.str text)).Part root) : text ∈ root.texts := by
  have leaf : Leaf.literal (.str text) ∈ root.leaves := by
    generalize top : Node.literal (.str text) = n at h
    induction h with
    | self =>
      rw [← top]
      exact List.mem_cons_self
    | within hc _ ih => exact mem_leaves_of_child hc ih
  exact List.mem_filterMap.2 ⟨_, leaf, rfl⟩

end Node

/-! ## The texts of a run -/

/-- A leaf has the text of its word; signs are folded into numbers only. -/
theorem Leaf.Spells.text? {N : Names} {leaf : Leaf} {word : Word} (h : leaf.Spells N word) :
    leaf.text? = word.text? := by
  cases h with
  | literal same => cases same <;> rfl
  | _ => rfl

theorem texts_of_spells {N : Names} {leaves : List Leaf} {words : List Word}
    (h : List.Forall₂ (Leaf.Spells N) leaves words) :
    leaves.filterMap Leaf.text? = words.filterMap Word.text? := by
  induction h with
  | nil => rfl
  | cons spells _ ih => simp only [List.filterMap_cons, spells.text?, ih]

namespace Parse

variable {N : Names} {b b' : Bench ε} {w : List Word}

/-- Without interpolation a literal is accepted just with escapes that can be replaced. -/
theorem exists_unescape {nested : List Char → Nat → Parse ε Operand} {raw : List Char}
    {doubleQuoted : Bool} {span : Span} {mode : LexMode}
    (off : b.scope.extensions.interpolation = false)
    (ran : operand nested (.str raw doubleQuoted) span b = .ok mode b') :
    ∃ text, Literal.unescape raw = .ok text := by
  obtain ⟨o, b₁, ran, -⟩ := exists_of_bind ran
  obtain ⟨_, _, ⟨⟩, ran⟩ := exists_of_bind ran
  simp only [off, Bool.and_false, Bool.false_eq_true, if_false] at ran
  cases replaced : Literal.unescape raw with
  | ok text => exact ⟨text, rfl⟩
  | error e =>
    rw [replaced] at ran
    cases ran

/-- The words of a token have the text of its literal, if it is one. -/
theorem unescaped_of_operand {nested : List Char → Nat → Parse ε Operand}
    {nestedWords : List Char → List Word} {kind : TokenKind} {span : Span} {mode : LexMode}
    {extensions : Extensions} (same : b.scope.extensions = extensions)
    (off : extensions.interpolation = false) (ran : operand nested kind span b = .ok mode b') :
    List.Forall₂ Unescaped kind.quoted?.toList
      ((Word.ofOperand extensions nestedWords kind).filterMap Word.text?) := by
  cases kind with
  | str raw doubleQuoted =>
    obtain ⟨text, replaced⟩ := exists_unescape (same ▸ off) ran
    have word : Word.ofOperand extensions nestedWords (.str raw doubleQuoted) =
        [.literal (.str (String.ofList text))] := by
      simp [Word.ofOperand, Word.ofString, off, replaced]
    rw [word]
    refine .cons ?_ .nil
    simpa [Unescaped] using replaced
  | ident i =>
    obtain ⟨kind, lookup, call⟩ := i
    cases kind <;> exact .nil
  | _ => exact .nil

theorem text?_operatorReach (symbol : String) (at_ : Cursor) :
    (operatorReach symbol at_).1.filterMap Word.text? = [] := by
  unfold operatorReach
  split
  · rfl
  · split
    · split <;> rfl
    · split <;> rfl
    · rfl

/-- **The literals of a run that succeeds are the texts among its words.** -/
theorem ends_rounds_literals {fuel : Nat} {mode : LexMode} (base : Nat) {at_ : Cursor}
    (h : Stands N mode b w) (off : N.extensions.interpolation = false) :
    Ends (rounds fuel mode base at_) b
      (fun _ _ => List.Forall₂ Unescaped (literals fuel mode at_)
        ((words N.extensions fuel mode at_).filterMap Word.text?))
      (fun _ _ => True) := by
  induction fuel generalizing N b w mode at_ with
  | zero => trivial
  | succ fuel ih =>
    have next {mode' : LexMode} {after : Cursor} {b' : Bench ε} {M : Names} {v : List Word}
        (hg : N.Grows M) (hs : Stands M mode' b' v) :
        Ends (rounds fuel mode' base after) b'
          (fun _ _ => List.Forall₂ Unescaped (literals fuel mode' after)
            ((words N.extensions fuel mode' after).filterMap Word.text?))
          (fun _ _ => True) := by
      rw [← hg.extensions] at off ⊢
      exact ih hs off
    unfold rounds
    rw [ends_bind, ends_readToken]
    cases hnext : Token.next mode at_ with
    | error e => trivial
    | ok r =>
      obtain ⟨token, after⟩ := r
      cases mode with
      | member => cases h.layout
      | operand =>
        simp only
        rw [ends_bind]
        by_cases hk : token.kind = .finish
        · rw [hk]
          exact ends_operand_finish (fun _ _ => trivial) trivial
        · have closed := h.describes.extensions
          refine ((h.operand _ (fun source =>
            words N.extensions fuel .operand (Cursor.start source)) _ (E := fun _ => True)
              (fun _ _ => trivial) hk ?_).and_self).mono ?_ fun _ _ _ => trivial
          · intro raw parts _ on
            rw [← closed, off] at on
            cases on
          · rintro mode' b₁ ⟨⟨rfl, M, hg, hs⟩, ran⟩
            refine (next hg hs).mono (fun _ _ rest => ?_) fun _ _ _ => trivial
            simp only [literals, words, hnext, List.filterMap_append]
            exact List.rel_append (unescaped_of_operand closed.symm off ran) rest
      | operator =>
        obtain ⟨kind, span⟩ := token
        cases kind with
        | finish =>
          refine (h.finish _).mono (fun _ _ _ => ?_) fun _ _ _ => trivial
          simp [literals, words, hnext]
        | comma =>
          simp only
          rw [ends_bind]
          refine (h.comma _).mono (fun _ b₁ hs => ?_) fun _ _ _ => trivial
          refine (next (.refl N) hs).mono (fun _ _ rest => ?_) fun _ _ _ => trivial
          simpa only [literals, words, hnext] using rest
        | operator symbol =>
          simp only
          rw [ends_bind]
          refine (h.operator symbol _ base after).mono ?_ fun _ _ _ => trivial
          rintro ⟨mode', after'⟩ b₁ ⟨heq, M, hg, hs⟩
          refine (next hg hs).mono (fun _ _ rest => ?_) fun _ _ _ => trivial
          simp only [literals, words, hnext, List.filterMap_append, text?_operatorReach, ← heq]
          exact rest
        | _ => trivial

end Parse

variable {text : String} {offset : Nat} {scope scope' : TemplateScope ε} {p : Parsed ε}

/-- Without interpolation the texts in a parsed tree are the string literals of its text, one for
one and in order, with their escapes replaced. -/
theorem parse_literals (h : parse text offset scope = (.ok p, scope'))
    (off : scope.extensions.interpolation = false) :
    List.Forall₂ Unescaped (literalsOf scope.extensions text) p.node.texts := by
  obtain ⟨M, o, -, -, hnode, -, -, plain, derived⟩ := parse_derives h
  have spells := derived.node_leaves plain
  rw [hnode] at spells
  obtain ⟨r, o, b, first, ran, -, -⟩ := parse_ok h
  obtain ⟨N, stands, extensions, -⟩ := firstRound?_stands first
  rw [firstRound?_start first] at ran stands
  have literals := (ends_rounds_literals offset stands (by rw [extensions, off])).ok ran
  rw [extensions] at literals
  rw [Node.texts, texts_of_spells spells]
  exact literals

/-! ## Parsed expressions -/

/-- Nothing in an expression parsed from the text is of a feature that is switched off. Without
interpolation its texts are the string literals of the text, one for one and in order, with their
escapes replaced, and it has no other constants that are texts. -/
structure Parsed.KeepsTo (extensions : Extensions) (text : String) (p : Parsed ε) : Prop where
  annotations : extensions.annotations = false →
    ∀ name args, ¬ (Node.annotated name args).Part p.node
  bindings : extensions.templateBindings = false → ∀ template slot,
    ¬ (Node.binding template slot).Part p.node ∧
      ∀ value, ¬ (Node.assignBinding template slot value).Part p.node
  definition : extensions.namedExpressions = false → p.name = none
  named : extensions.namedExpressions = false → ∀ args,
    ¬ (Node.recurse args).Part p.node ∧ ∀ target, ¬ (Node.named target args).Part p.node
  interpolation : extensions.interpolation = false → ∀ parts, ¬ (Node.concat parts).Part p.node
  texts : extensions.interpolation = false →
    List.Forall₂ Unescaped (literalsOf extensions text) p.node.texts ∧
      ∀ s, (Node.literal (.str s)).Part p.node → s ∈ p.node.texts

/-- **Features that are switched off cannot be reached.** Whatever has been parsed before in the
same scope, whichever scopes have been entered and left and definitions completed or given up, an
expression has nothing of them in it, at no depth and in no interpolated source. -/
theorem disabled_features_unreachable {extensions : Extensions} {actions : List (ScopeAction ε)}
    (h : parse text offset ((TemplateScope.fresh extensions).acts actions) = (.ok p, scope')) :
    p.KeepsTo extensions text := by
  have same : ((TemplateScope.fresh extensions : TemplateScope ε).acts actions).extensions =
      extensions := TemplateScope.extensions_acts _ actions
  obtain ⟨N, o, lists, -, hnode, -, ⟨-, hext⟩, -, derived⟩ := parse_derives h
  have gates : N.extensions = extensions := hext.trans same
  have backed {n : Node} (part : n.Part p.node) : n.Backed N :=
    derived.backed_of_part (hnode ▸ part)
  have unbound (off : extensions.templateBindings = false) (template : TemplateId) :
      N.bindings template = [] := by
    have left := ((TemplateScope.bindless_fresh off).acts actions).act (.parse text offset)
    rw [lists.bindings, ← left.none template, TemplateScope.act, h]
  exact
    { annotations := by
        intro off name args part
        have on : N.extensions.annotations := backed part
        simp [gates, off] at on
      bindings := by
        intro off template slot
        have none : ¬ slot < (N.bindings template).length := by simp [unbound off]
        exact ⟨fun part => none (backed part), fun _ part => none (backed part)⟩
      definition := by
        intro off
        have leaves := parse_leaves text offset
          ((TemplateScope.fresh extensions : TemplateScope ε).acts actions)
        rw [h] at leaves
        rw [leaves.1, nameDefined?, definitionOf?_eq_none.2 (by simp [same, off])]
        rfl
      named := by
        intro off args
        have closed : ¬ N.extensions.namedExpressions := by simp [gates, off]
        exact ⟨fun part => closed (backed part), fun _ part => closed (backed part)⟩
      interpolation := by
        intro off parts part
        have on : N.extensions.interpolation := backed part
        simp [gates, off] at on
      texts := by
        intro off
        have literals := parse_literals h (by rw [same, off])
        rw [same] at literals
        exact ⟨literals, fun _ => Node.mem_texts_of_part⟩ }

/-- Everything is switched off. The texts before define nothing and bind nothing, a definition that
is completed anyway is not called, and the string literal is no interpolation. -/
theorem disabled_features_unreachable_of_none :
    let scope := (TemplateScope.fresh .none : TemplateScope Nat).acts
      [.parse "f(x) -> x" 0, .push 1, .parse "y := 1" 10, .complete "f" 7, .pop]
    let text := "\"a\\t$\x7by\x7d\" + f(y)"
    ∃ p scope', parse text 20 scope = (.ok p, scope') ∧ p.KeepsTo .none text ∧
      p.node.texts = ["a\t$\x7by\x7d"] := by
  intro scope text
  have texts : (parse text 20 scope).1.toOption.map (·.node.texts) = some ["a\t$\x7by\x7d"] := by
    decide +kernel
  obtain ⟨p, scope', h⟩ := parse_of_isOk text 20 scope (by decide +kernel)
  rw [h] at texts
  exact ⟨p, scope', h, disabled_features_unreachable h, Option.some.inj texts⟩

end TagExpr
