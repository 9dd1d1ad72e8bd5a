import TagExpr.Proofs.Parse.Operators

/-!
# Tokens where an operand is expected

A token in operand position leaves the words that it stands for on the stacks, and what comes next
is what `TokenKind.modeAfter` says. Interpolated sources are parsed on stacks of their own; how that
ends is a hypothesis here, about exactly the calls that the literal makes.
-/

namespace TagExpr.Parse

variable {ε : Type} {N : Names} {b : Bench ε} {w : List Word}

/-! ## Names -/

theorem ends_resolveName (hd : Describes N b.tables b.scope) (name : String) (lookup : Lookup)
    (span : Span) {E : ParseError → Bench ε → Prop} :
    Ends (resolveName name lookup span) b
      (fun o b' => ∃ M, Looked N M b b' ∧ ¬ o.isPair ∧ Simple M o (.name lookup name false)) E := by
  have hpair (node : Node) (bare : Option String) :
      ¬ ({ Operand.object node span with name := bare } : Operand).isPair := by
    simp [Operand.isPair, Operand.object]
  unfold resolveName
  by_cases hl : lookup = .unstated
  · subst hl
    simp only [ne_eq, not_true_eq_false, if_false, ends_bind, ends_get]
    cases hlocal : b.tables.local? name with
    | some slot => exact ⟨N, .refl hd, hpair _ _, .bare span (.localVar (hd.slot_of_local? hlocal))⟩
    | none =>
      cases hbinding : b.scope.findBinding? name with
      | some found =>
        exact ⟨N, .refl hd, hpair _ _, .bare span (.binding (hd.binding_of_findBinding? hbinding))⟩
      | none =>
        simp only [ends_bind]
        refine (ends_namedCall? hd name []).mono ?_ fun _ _ he => he
        rintro (_ | node) b₁ ⟨M, ht, hn, hnone⟩
        · simp only [ends_bind]
          refine (ends_identifier ht.describes _).mono ?_ fun _ _ he => he
          rintro ident b₂ ⟨L, ht', hi⟩
          have hcall : L.callable name = false := by rw [ht'.grows.callable, hnone rfl]
          exact ⟨L, ht.trans ht', hpair _ _, .bare span (.property hcall hi)⟩
        · exact ⟨M, ht, hpair _ _, .bare span (.named (hn node rfl))⟩
  · simp only [ne_eq, hl, not_false_eq_true, if_true, ends_bind]
    refine (ends_identifier hd _).mono ?_ fun _ _ he => he
    rintro ident b₁ ⟨M, ht, hi⟩
    exact ⟨M, ht, by simp [Operand.isPair, Operand.object], .property span hl hi⟩

/-! ## Completing an operand -/

/-- A finished fragment goes on the operand stack. -/
theorem Stands.value (h : Stands N .operand b w) {M : Names} {b₁ : Bench ε} (ht : Tabled N M b b₁)
    {o : Operand} {v : List Word} (hd : Derives M [o] v) (hp : ¬ o.isPair) :
    Stands M .operator { b₁ with operands := b₁.operands.push o } (w ++ v) := by
  refine ⟨ht.describes, ?_⟩
  simpa [ht.operands, ht.operators] using
    Layout.value (h.layout.mono ht.grows) hd fun hpair => absurd hpair hp

/-- An operator that takes no operand on its left starts to wait. -/
theorem Stands.opens (h : Stands N .operand b w) {op : Operator} {extra : Extra} (span : Span)
    (ho : Opens N op.kind extra) {v : List Word}
    (hv : v = Pending.words { op, span, base := b.operands.size, extra }) :
    Stands N .operand
      { b with operators := b.operators.push { op, span, base := b.operands.size, extra } }
      (w ++ v) := by
  refine ⟨h.describes, ?_⟩
  rw [hv]
  exact .opens h.layout ho rfl rfl

theorem Stands.ident (h : Stands N .operand b w) (i : Ident) (span : Span) :
    Ends (ident i span) b
      (fun mode b' => mode = (TokenKind.ident i).modeAfter ∧
        ∃ M, N.Grows M ∧ Stands M mode b' (w ++ [Word.ofIdent i]))
      (fun e _ => Regular e) := by
  have hpair (node : Node) : ¬ (Operand.object node span).isPair := by
    simp [Operand.isPair, Operand.object]
  unfold Parse.ident
  obtain ⟨kind, lookup, call⟩ := i
  cases kind with
  | current levels =>
    exact ⟨rfl, N, .refl N, h.value (.refl h.describes) (.word (.current levels span)) (hpair _)⟩
  | internal name =>
    simp only
    split
    case h_1 => simp [Regular]
    case h_2 internal hname =>
      cases call with
      | true => simp [Regular]
      | false =>
        have htype : (if internal = .index then OperandType.integral else .boolean) =
            internal.operandType := by cases internal <;> rfl
        have hp : internal.operandType ≠ .pair := by
          cases internal <;> simp [InternalName.operandType]
        simp only [Bool.false_eq_true, if_false, htype]
        exact ⟨rfl, N, .refl N, h.value (.refl h.describes)
          (.word (.internal lookup span hname)) (by simpa [Operand.isPair] using hp)⟩
  | annotated name =>
    simp only [ends_bind, ends_get]
    cases ha : b.scope.extensions.annotations with
    | false => simp [Regular]
    | true =>
      have ha' : N.extensions.annotations := by rw [h.describes.extensions, ha]
      cases call with
      | true => exact ⟨rfl, N, .refl N, h.opens span (.annotated name ha') rfl⟩
      | false =>
        exact ⟨rfl, N, .refl N,
          h.value (.refl h.describes) (.word (.annotated name span ha')) (hpair _)⟩
  | name name =>
    cases call with
    | true => exact ⟨rfl, N, .refl N, h.opens span (.bareCall name lookup) rfl⟩
    | false =>
      simp only [Bool.false_eq_true, if_false, ends_bind]
      refine (ends_resolveName h.describes name lookup span).mono ?_ fun _ _ he => he
      rintro o b₁ ⟨M, ht, hp, hs⟩
      exact ⟨rfl, M, ht.grows, h.value ht.toTabled (.word hs) hp⟩

/-! ## String literals -/

/-- A whole text was parsed: one fragment came out of its words. -/
def Yields (N : Names) (w : List Word) (o : Operand) (b : Bench ε) : Prop :=
  ∃ M, N.Grows M ∧ Describes M b.tables b.scope ∧ ¬ o.isPair ∧ Derives M [o] w

section Literal

variable {nested : List Char → Nat → Parse ε Operand} {nestedWords : List Char → List Word}
  {base : Nat} {part : Literal.Segment} {parts : List Literal.Segment} {E : ParseError → Prop}

/-- The fragment of one part of a literal. -/
def segment (nested : List Char → Nat → Parse ε Operand) (base : Nat) :
    Literal.Segment → Parse ε Node
  | .text text => pure (.str (String.ofList text))
  | .expression source place => (·.node) <$> isolated (nested source (base + place))
  | .name name place =>
    let start := base + place
    (·.node) <$> resolveName (String.ofList name) .unstated
      (Span.ofRange start (start + byteLength name))

theorem segments_cons : segments nested base (part :: parts) = (do
    let node ← segment nested base part
    return node :: (← segments nested base parts)) := by
  cases part with
  | text => rfl
  | expression | name => simp only [segments, segment, map_eq_pure_bind, bind_assoc, pure_bind]

/-- Taking the parts of a literal apart on the bench `b` leads to the parse of an interpolated
source on the bench `b'`. -/
def Calls (nested : List Char → Nat → Parse ε Operand) (base : Nat)
    (parts : List Literal.Segment) (b : Bench ε) (source : List Char) (start : Nat)
    (b' : Bench ε) : Prop :=
  ∃ before place after nodes b₁, parts = before ++ .expression source place :: after ∧
    segments nested base before b = .ok nodes b₁ ∧ start = base + place ∧
    b' = { b₁ with operands := .empty, operators := .empty }

theorem Calls.head {source : List Char} {place : Nat} :
    Calls nested base (.expression source place :: parts) b source (base + place)
      { b with operands := .empty, operators := .empty } :=
  ⟨[], place, parts, [], b, rfl, rfl, rfl, rfl⟩

theorem Calls.cons {b₁ b' : Bench ε} {node : Node} {source : List Char} {start : Nat}
    (hpart : segment nested base part b = .ok node b₁)
    (h : Calls nested base parts b₁ source start b') :
    Calls nested base (part :: parts) b source start b' := by
  obtain ⟨before, place, after, nodes, b₂, rfl, hbefore, hstart, hb'⟩ := h
  refine ⟨part :: before, place, after, node :: nodes, b₂, rfl, ?_, hstart, hb'⟩
  rw [segments_cons]
  simp only [bind, EStateM.bind, hpart, hbefore, pure, EStateM.pure]

/-- The locals of an interpolated source are hidden after it, and the stacks come back. -/
theorem ends_isolated {w : List Word} {parse : Parse ε Operand}
    (h : Ends parse { b with operands := .empty, operators := .empty } (Yields N w)
      (fun e _ => E e)) :
    Ends (isolated parse) b
      (fun o b' => ∃ M, Tabled N M b b' ∧ ¬ o.isPair ∧ Derives M [o] w) (fun e _ => E e) := by
  simp only [isolated, ends_bind, ends_get, ends_set]
  refine h.mono ?_ fun _ _ he => he
  rintro o b₁ ⟨M, hg, hd, hp, hw⟩
  exact ⟨M, ⟨hg, hd.endScope _, rfl, rfl⟩, hp, hw⟩

variable (nestedWords part) in
theorem ends_segment (hd : Describes N b.tables b.scope)
    (hnested : ∀ source place, part = .expression source place →
      Ends (nested source (base + place)) { b with operands := .empty, operators := .empty }
        (Yields N (nestedWords source)) (fun e _ => E e)) :
    Ends (segment nested base part) b
      (fun node b' => ∃ M o, Tabled N M b b' ∧ node = o.node ∧ ¬ o.isPair ∧
        Derives M [o] (Word.ofSegment nestedWords part))
      (fun e _ => E e) := by
  cases part with
  | text text =>
    exact ⟨N, .literal (.str (String.ofList text)) .string default, .refl hd, rfl,
      by simp [Operand.isPair, Operand.literal], .word (.literal _ _)⟩
  | expression source place =>
    rw [segment, ends_map]
    refine (ends_isolated (hnested source place rfl)).mono ?_ fun _ _ he => he
    rintro o b₁ ⟨M, ht, hp, hw⟩
    exact ⟨M, o, ht, rfl, hp, hw⟩
  | name name place =>
    rw [segment, ends_map]
    refine (ends_resolveName hd _ _ _).mono ?_ fun _ _ he => he
    rintro o b₁ ⟨M, ht, hp, hs⟩
    exact ⟨M, o, ht.toTabled, rfl, hp, .word hs⟩

variable (nested base parts) in
/-- The parts of a literal give fragments derived from their words, if every interpolated source
does. -/
theorem ends_segments (hd : Describes N b.tables b.scope)
    (hnested : ∀ source start b', Calls nested base parts b source start b' →
      ∀ M, N.Grows M → Describes M b'.tables b'.scope →
        Ends (nested source start) b' (Yields M (nestedWords source)) (fun e _ => E e)) :
    Ends (segments nested base parts) b
      (fun nodes b' => ∃ M os, Tabled N M b b' ∧ nodes = os.map (·.node) ∧
        (∀ o ∈ os, ¬ o.isPair) ∧ Derives M os (parts.flatMap (Word.ofSegment nestedWords)))
      (fun e _ => E e) := by
  -- A part leads to the bench on which the next one is parsed, so the calls for the rest are calls
  -- for the whole literal.
  induction parts generalizing N b with
  | nil => exact ⟨N, [], .refl hd, rfl, by simp, .nil⟩
  | cons part parts ih =>
    have hpart := ends_segment nestedWords part (E := E) hd
      fun source place he => by
        subst he
        exact hnested source _ _ .head N (.refl N) hd
    rw [segments_cons, ends_bind]
    refine (hpart.and_self).mono ?_ fun _ _ he => he.1
    rintro node b₁ ⟨⟨M, o, ht, rfl, hp, hw⟩, hrun⟩
    rw [ends_bind]
    have hrest := ih ht.describes fun source start b' hcall L hg =>
      hnested source start b' (hcall.cons hrun) L (ht.grows.trans hg)
    refine hrest.mono ?_ fun _ _ he => he
    rintro nodes b₂ ⟨L, os, ht', rfl, hps, hws⟩
    refine ⟨L, o :: os, ht.trans ht', rfl, ?_, ?_⟩
    · exact List.forall_mem_cons.mpr ⟨hp, hps⟩
    · simpa using Derives.cons (hw.mono ht'.grows) hws

variable (nestedWords) in
/-- A string literal stands for its parts. -/
theorem ends_string {raw : List Char} {doubleQuoted : Bool} {span : Span}
    (hE : ∀ e, Regular e → E e) (hd : Describes N b.tables b.scope)
    (hnested : ∀ parts, doubleQuoted → b.scope.extensions.interpolation →
      Literal.split raw = .ok parts → ∀ source start b',
      Calls nested (span.start + 1) parts b source start b' →
      ∀ M, N.Grows M → Describes M b'.tables b'.scope →
        Ends (nested source start) b' (Yields M (nestedWords source)) (fun e _ => E e)) :
    Ends (string nested raw doubleQuoted span) b
      (fun o b' => ∃ M, Tabled N M b b' ∧ ¬ o.isPair ∧
        Derives M [o] (Word.ofString N.extensions nestedWords raw doubleQuoted))
      (fun e _ => E e) := by
  have text (text : List Char) : ∃ M, Tabled N M b b ∧
      ¬ (Operand.literal (.str (String.ofList text)) .string span).isPair ∧
      Derives M [Operand.literal (.str (String.ofList text)) .string span]
        [.literal (.str (String.ofList text))] :=
    ⟨N, .refl hd, by simp [Operand.isPair, Operand.literal], .word (.literal _ span)⟩
  simp only [string, Word.ofString, ends_bind, ends_get, hd.extensions]
  cases hq : doubleQuoted && b.scope.extensions.interpolation with
  | true =>
    rw [Bool.and_eq_true] at hq
    simp only [if_true]
    cases hs : Literal.split raw with
    | error e => exact hE _ (ofLex_regular e _)
    | ok parts =>
      simp only
      split
      case h_1 heq => cases heq
      case h_2 whole heq =>
        cases heq
        simpa [Word.ofSegment] using text whole
      case h_3 heq =>
        cases heq
        rw [ends_bind]
        refine (ends_segments _ _ _ hd (hnested parts hq.1 hq.2 hs)).mono ?_ fun _ _ he => he
        rintro nodes b₁ ⟨M, os, ht, rfl, hps, hws⟩
        have enabled : M.extensions.interpolation := by
          rw [ht.grows.extensions, hd.extensions]
          exact hq.2
        exact ⟨M, ht, by simp [Operand.isPair], .concat span enabled hws hps⟩
  | false =>
    simp only [Bool.false_eq_true, if_false]
    cases Literal.unescape raw with
    | error e => exact hE _ (ofLex_regular e _)
    | ok whole => exact text whole

/-! ## Any token -/

variable (nested nestedWords) in
/-- A token in operand position leaves its words on the stacks. -/
theorem Stands.operand (h : Stands N .operand b w) {kind : TokenKind} (span : Span)
    (hE : ∀ e, Regular e → E e) (hk : kind ≠ .finish)
    (hnested : ∀ raw parts, kind = .str raw true → b.scope.extensions.interpolation →
      Literal.split raw = .ok parts → ∀ source start b',
      Calls nested (span.start + 1) parts b source start b' →
      ∀ M, N.Grows M → Describes M b'.tables b'.scope →
        Ends (nested source start) b' (Yields M (nestedWords source)) (fun e _ => E e)) :
    Ends (operand nested kind span) b
      (fun mode b' => mode = kind.modeAfter ∧ ∃ M, N.Grows M ∧
        Stands M mode b' (w ++ Word.ofOperand N.extensions nestedWords kind))
      (fun e _ => E e) := by
  have literal (value : Literal) :
      Stands N .operator
        { b with operands := b.operands.push (.literal value value.operandType span) }
        (w ++ [.literal value]) :=
    h.value (.refl h.describes) (.word (.literal value span))
      (by cases value <;> simp [Operand.isPair, Operand.literal, Literal.operandType])
  have object (node : Node) : ¬ (Operand.object node span).isPair := by
    simp [Operand.isPair, Operand.object]
  unfold Parse.operand
  cases kind with
  | null => exact ⟨rfl, N, .refl N, literal .null⟩
  | bool value => exact ⟨rfl, N, .refl N, literal (.bool value)⟩
  | int value => exact ⟨rfl, N, .refl N, literal (.int value)⟩
  | double value => exact ⟨rfl, N, .refl N, literal (.double value)⟩
  | str raw doubleQuoted =>
    simp only [ends_bind]
    have hstring := ends_string nestedWords hE h.describes
      fun parts (hq : doubleQuoted) => hnested raw parts (by rw [hq])
    refine hstring.mono ?_ fun _ _ he => he
    rintro o b₁ ⟨M, ht, hp, hw⟩
    exact ⟨rfl, M, ht.grows, h.value ht hw hp⟩
  | regex raw =>
    exact ⟨rfl, N, .refl N, h.value (.refl h.describes) (.word (.regex _ span)) (object _)⟩
  | emptyMap =>
    exact ⟨rfl, N, .refl N, h.value (.refl h.describes) (.word (.emptyMap span)) (object _)⟩
  | ident i => exact (h.ident i span).mono (fun _ _ hs => hs) fun e _ he => hE e he
  | operator symbol =>
    simp only [TokenKind.modeAfter, Word.ofOperand, List.append_nil]
    cases hcl : Operator.closers.contains symbol with
    | true =>
      simp only [if_true, ends_bind, ends_pure]
      refine (h.closeWithoutOperand symbol span).mono ?_ fun e _ he => hE e he
      exact fun _ b₁ hs => ⟨trivial, hs⟩
    | false =>
      simp only [Bool.false_eq_true, if_false]
      cases hop : Operator.findPrefix? symbol with
      | none => exact hE _ (by simp [Regular])
      | some op =>
        refine ⟨rfl, N, .refl N, ?_⟩
        have hw : Pending.words { op, span, base := b.operands.size } = [] := rfl
        simpa [hw] using h.opens span (opens_of_findPrefix? hop N) rfl
  | comma => exact hE _ (by simp [Regular])
  | finish => exact absurd rfl hk

/-- Where the text ends in operand position there is nothing to go on with. -/
theorem ends_operand_finish {span : Span} {Q : LexMode → Bench ε → Prop}
    (hE : ∀ e, Regular e → E e) (hfinish : E ⟨.unexpectedEnd, span⟩) :
    Ends (Parse.operand nested .finish span) b Q (fun e _ => E e) := by
  simp only [Parse.operand, ends_bind, ends_get]
  split
  case isTrue => exact hE _ (by simp [Regular])
  case isFalse => exact hfinish

end Literal

end TagExpr.Parse
