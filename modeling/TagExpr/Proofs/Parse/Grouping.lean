import TagExpr.Proofs.Parse.Enclosed
import TagExpr.Proofs.Placing.Interpolation

/-!
# Grouping

A parenthesis around a whole expression changes nothing about it but its place (`parse_grouped`).
The run inside of the parenthesis takes the tokens that the run without it takes, up to where the
text ends (`ends_rounds_enclosed`): there the waiting operators are applied for the closer instead
of the end, and the fragment that is left is made into a group. The closer is on a line of its own,
where no comment of the expression takes it in.
-/

namespace TagExpr

/-- What ends a group: a new line, which ends a comment, and the closer. -/
def groupEnd : List Char := ['\n', ')']

/-- The text in parentheses. -/
def grouped (text : String) : String := "(" ++ text ++ "\n)"

theorem toList_grouped (text : String) :
    (grouped text).toList = '(' :: (text.toList ++ groupEnd) := by
  simp [grouped, groupEnd]

theorem stops_groupEnd : Token.Stops groupEnd := ⟨'\n', [')'], rfl, rfl⟩

namespace Parse

variable {ε : Type} {N : Names} {w : List Word} {b b' : Bench ε} {o : Operand} {span : Span}

/-! ## The end of the text -/

/-- A text ends in one fragment, which is no entry, when all that waits has been applied. -/
theorem finish_ok {at_ : Span} (ran : finish at_ b = .ok o b') :
    reduceWhile (fun _ => true) b = .ok () b' ∧ b'.operands = ⟨[o]⟩ ∧ o.isPair = false := by
  unfold finish at ran
  obtain ⟨_, b₁, reduced, ran⟩ := exists_of_bind ran
  obtain ⟨_, _, ⟨⟩, ran⟩ := exists_of_bind ran
  obtain ⟨scope, tables, ⟨operands⟩, operators⟩ := b₁
  match operands, ran with
  | [o₁], ran =>
    cases hpair : o₁.isPair with
    | true =>
      simp only [hpair, if_true] at ran
      cases ran
    | false =>
      simp only [hpair, Bool.false_eq_true, if_false] at ran
      cases ran
      exact ⟨reduced, rfl, hpair⟩

/-- Where the text would end in one fragment, the closer makes a group of it. -/
theorem Stands.ends_closeGroup (h : Stands N .operator b w) {at_ : Span}
    (ran : Parse.finish at_ b = .ok o b') (closing : Span) :
    Ends (Parse.close ")" closing) (b.enclosed span)
      (fun _ b'' => ∃ o', b''.operands = ⟨[o']⟩ ∧ b''.operators = .empty ∧ ¬ o'.isPair ∧
        o.Same o' ∧ b''.scope = b'.scope ∧ b''.tables = b'.tables) (fun _ _ => False) := by
  obtain ⟨reduced, hoperands, hpair⟩ := finish_ok ran
  have hoperators : b'.operators.toList = [] := by
    rw [((h.reduceWhile _).ok reduced).2]
    simp
  have reduced' : reduceToContainer (b.enclosed span) = .ok () (b'.enclosed span) :=
    within_reduceAll.ok reduced
  obtain ⟨scope, tables, ⟨_⟩, ⟨_⟩⟩ := b'
  cases hoperands
  cases hoperators
  unfold Parse.close
  rw [ends_bind, ends_of_ok reduced', ends_bind, ends_get]
  show Ends (closeGroup [o] (span.merge closing))
    ({ scope, tables, operands := ⟨[]⟩, operators := ⟨[]⟩ } : Bench ε) _ _
  simp only [closeGroup, hpair, Bool.false_eq_true, if_false]
  -- The group is no bare name and no entry, whatever is in it.
  exact ⟨_, rfl, rfl, by simpa [Operand.isPair] using hpair, ⟨rfl, rfl, rfl⟩, rfl, rfl⟩

/-! ## The run inside of the parenthesis -/

theorem rounds_operand {fuel base : Nat} {at_ after : Cursor} {token : Token}
    (h : Token.next .operand at_ = .ok (token, after)) :
    (rounds (fuel + 1) .operand base at_ : Parse ε Operand) = (do
      let mode ← operand (nestedParse fuel) token.kind (token.span.shift base)
      rounds fuel mode base after) := by
  rw [rounds, readToken_of_next h]
  exact pure_bind _ _

theorem rounds_operator {fuel base : Nat} {at_ after : Cursor} {token : Token}
    (h : Token.next .operator at_ = .ok (token, after)) :
    (rounds (fuel + 1) .operator base at_ : Parse ε Operand) =
      match token.kind with
      | .finish => finish (token.span.shift base)
      | .comma => do
        comma (token.span.shift base)
        rounds fuel .operand base after
      | .operator symbol => do
        let (mode, after) ← operator symbol (token.span.shift base) base after
        rounds fuel mode base after
      | _ => unexpected "" .operator (token.span.shift base) := by
  rw [rounds, readToken_of_next h]
  exact pure_bind _ _

/-- At the end of the text the closer is read, and then the end. -/
theorem Stands.ends_rounds_closer (h : Stands N .operator b w) {fuel base : Nat}
    {at_ after : Cursor} {token : Token} (hnext : Token.next .operator at_ = .ok (token, after))
    (hk : token.kind = .finish) {place : Span} (ran : Parse.finish place b = .ok o b') :
    Ends (rounds (fuel + 2) .operator base (at_.on groupEnd)) (b.enclosed span)
      (fun o' b'' => o.Same o' ∧ b''.scope = b'.scope ∧ b''.tables = b'.tables)
      (fun _ _ => False) := by
  obtain ⟨closing, after', hcloser, hend⟩ := Token.next_on_end hnext hk
  rw [groupEnd, rounds_operator hcloser]
  show Ends ((do Parse.close ")" (closing.shift base); return (.operator, after')) >>=
    fun r : LexMode × Cursor => rounds (fuel + 1) r.1 base r.2) _ _ _
  simp only [ends_bind, ends_pure]
  refine (h.ends_closeGroup ran (closing.shift base)).mono ?_ fun _ _ he => he
  rintro _ b'' ⟨o', hoperands, hoperators, hpair, same⟩
  exact ends_rounds_end hend hpair hoperands hoperators same

/-- **A parenthesis around all that is parsed changes nothing.** The run goes on behind what was the
end of the text, with the closer, to the same fragment in a group. -/
theorem ends_rounds_enclosed {fuel : Nat} {mode : LexMode} {base : Nat} {at_ : Cursor}
    (laid : (Round.mk fuel mode base at_ b).LaidOut) (long : at_.rest.length + 2 < fuel)
    (ran : rounds fuel mode base at_ b = .ok o b') (span : Span) :
    Ends (rounds fuel mode base (at_.on groupEnd)) (b.enclosed span)
      (fun o' b'' => o.Same o' ∧ b''.scope = b'.scope ∧ b''.tables = b'.tables)
      (fun _ _ => False) := by
  -- Both runs take the same tokens, and the group has two characters more.
  induction fuel generalizing mode at_ b with
  | zero => omega
  | succ fuel ih =>
    cases hnext : Token.next mode at_ with
    | error e =>
      rw [rounds, readToken_of_error hnext] at ran
      cases ran
    | ok r =>
      obtain ⟨token, after⟩ := r
      have later (hk : token.kind ≠ .finish) : after.rest.length + 2 < fuel := by
        have := Token.length_next hnext hk
        omega
      cases mode with
      | member =>
        obtain ⟨_, _, stands⟩ := laid.1
        cases stands.layout
      | operand =>
        rw [rounds_operand hnext] at ran
        obtain ⟨mode, b₁, first, ran⟩ := exists_of_bind ran
        have hk : token.kind ≠ .finish := fun hk => by
          rw [hk] at first
          exact (ends_operand_finish (E := fun _ => True) (Q := fun _ _ => False)
            (fun _ _ => trivial) trivial).ok first
        rw [rounds_operand (Token.next_on stops_groupEnd hnext hk), ends_bind,
          ends_of_ok ((steady_operand _ _).ok first)]
        exact ih ((Enters.operand hnext first).laidOut laid) (later hk) ran
      | operator =>
        obtain ⟨N, w, stands⟩ := laid.1
        rw [rounds_operator hnext] at ran
        obtain ⟨kind, place⟩ := token
        cases kind with
        | finish =>
          obtain ⟨fuel, rfl⟩ : ∃ n, fuel = n + 1 := ⟨fuel - 1, by omega⟩
          exact stands.ends_rounds_closer hnext rfl ran
        | comma =>
          have hk : TokenKind.comma ≠ .finish := by simp
          obtain ⟨_, b₁, first, ran⟩ := exists_of_bind ran
          rw [rounds_operator (Token.next_on stops_groupEnd hnext hk)]
          simp only
          rw [ends_bind, ends_of_ok ((steady_comma _).ok first)]
          exact ih ((Enters.comma (by simp) hnext first).laidOut laid) (later hk) ran
        | operator symbol =>
          have hk : TokenKind.operator symbol ≠ .finish := by simp
          obtain ⟨⟨mode, after₁⟩, b₁, first, ran⟩ := exists_of_bind ran
          obtain ⟨_, first', rfl⟩ := stands.within_operator stops_groupEnd (by decide) symbol _ _ _
            _ _ first
          rw [rounds_operator (Token.next_on stops_groupEnd hnext hk)]
          simp only
          rw [ends_bind, ends_of_ok first']
          have shorter := (answers_operator symbol _ base after b).ok first
          refine ih ((Enters.operator (by simp) hnext first).laidOut laid) ?_ ran
          exact Nat.lt_of_le_of_lt (Nat.add_le_add_right shorter.length_le 2) (later hk)
        | _ => cases ran

end Parse

open Parse

variable {ε : Type} {text : String} {offset : Nat} {scope scope' : TemplateScope ε} {p : Parsed ε}

/-! ## Whole texts -/

/-- What is no definition is put together from its last fragment. -/
theorem parse_of_no_definition (h : definitionOf? scope.extensions text = none) :
    parse text offset scope =
      match (Round.start scope {} offset (Cursor.start text.toList)).run with
      | .ok o b => (.ok (.ofOperand o b.tables none 0 o.binds
          ((Span.ofRange 0 (byteLength text.toList)).shift offset)), b.scope)
      | .error e b => (.error e, b.scope) := by
  rw [definitionOf?] at h
  simp only [parse, h, runFrom_eq]
  cases (Round.start scope {} offset (Cursor.start text.toList)).run <;> rfl

/-- What is parsed without a name is no definition. -/
theorem definitionOf?_of_unnamed (h : parse text offset scope = (.ok p, scope'))
    (hname : p.name = none) : definitionOf? scope.extensions text = none := by
  obtain ⟨r, o, b, hfirst, -, -, hp⟩ := parse_ok h
  cases hd : definitionOf? scope.extensions text with
  | none => rfl
  | some d =>
    rw [firstRound?, hd] at hfirst
    simp only at hfirst
    split at hfirst
    case isTrue => cases hfirst
    case isFalse =>
      split at hfirst <;> cases hfirst
      cases hp.name.symm.trans hname

theorem definitionOf?_grouped (extensions : Extensions) (text : String) :
    definitionOf? extensions (grouped text) = none := by
  rw [definitionOf?_eq_none, toList_grouped]
  intro _
  rfl

theorem next_grouped (text : String) :
    Token.next .operand (Cursor.start (grouped text).toList) =
      .ok (⟨.operator "(", Span.ofRange 0 1⟩, (Cursor.mk 1 text.toList).on groupEnd) := by
  rw [toList_grouped]
  rfl

theorem length_grouped (text : String) :
    (grouped text).toList.length = text.toList.length + 3 := by
  simp [toList_grouped, groupEnd]

/-- The run of the text in parentheses opens the first one and goes on with the text. -/
theorem run_grouped_eq (text : String) (offset : Nat) (scope : TemplateScope ε) :
    (Round.start scope {} offset (Cursor.start (grouped text).toList)).run = (do
      let mode ← operand (nestedParse (text.toList.length + 3)) (.operator "(")
        ((Span.ofRange 0 1).shift offset)
      rounds (text.toList.length + 3) mode offset ((Cursor.mk 1 text.toList).on groupEnd))
        { scope, tables := {} } := by
  rw [← rounds_operand (next_grouped text), Round.run, Round.start, Cursor.start, length_grouped]

/-- The run of the text in parentheses ends as that of the text. -/
theorem run_grouped {o : Operand} {b : Bench ε} (offset' : Nat)
    (ran : (Round.start scope {} offset (Cursor.start text.toList)).run = .ok o b) :
    ∃ o' b', (Round.start scope {} offset' (Cursor.start (grouped text).toList)).run = .ok o' b' ∧
      o.Same o' ∧ b'.scope = b.scope ∧ b'.tables = b.tables := by
  have lasts : text.toList.length < text.toList.length + 3 := by omega
  have behind : (Cursor.mk 1 text.toList).rest = (Cursor.start text.toList).rest := rfl
  obtain ⟨o₁, b₁, ran₁, same₁, scope₁, tables₁⟩ :=
    rounds_elsewhere behind offset' (Nat.lt_succ_self _) lasts ran
  rw [run_grouped_eq]
  refine Ends.exists_ok ?_
  rw [ends_bind]
  have laid : (Round.mk (text.toList.length + 3) .operand offset' ⟨1, text.toList⟩
      { scope, tables := {} }).LaidOut :=
    ⟨⟨_, [], .fresh scope, .start⟩, lasts⟩
  refine (ends_rounds_enclosed laid (by simp) ran₁ _).mono ?_ fun _ _ he => he
  rintro o' b' ⟨same, hscope, htables⟩
  exact ⟨same₁.trans same, hscope.trans scope₁, htables.trans tables₁⟩

/-- The fragments make one expression, but for its place. -/
theorem ofOperand_same {o o' : Operand} (h : o.Same o') (tables : Tables ε)
    (name : Option String) (params : Nat) (span span' : Span) :
    Parsed.ofOperand o' tables name params o'.binds span' =
      { Parsed.ofOperand o tables name params o.binds span with span := span' } := by
  simp only [Parsed.ofOperand, h.node, h.type, h.binds]

/-- **Grouping is transparent.** A text that is accepted and is no definition is accepted in
parentheses, too, with the same expression but for its place, and it leaves the same scope. -/
theorem parse_grouped (text : String) (offset offset' : Nat) (scope scope' : TemplateScope ε)
    (p : Parsed ε) (h : parse text offset scope = (.ok p, scope')) (hname : p.name = none) :
    ∃ span, parse (grouped text) offset' scope = (.ok { p with span }, scope') := by
  rw [parse_of_no_definition (definitionOf?_of_unnamed h hname)] at h
  rw [parse_of_no_definition (definitionOf?_grouped _ text)]
  cases hrun : (Round.start scope {} offset (Cursor.start text.toList)).run with
  | error e b =>
    rw [hrun] at h
    cases h
  | ok o b =>
    rw [hrun] at h
    cases h
    obtain ⟨o', b', hrun', same, hscope, htables⟩ := run_grouped offset' hrun
    simp only [hrun', hscope, htables]
    exact ⟨_, congrArg (fun q => (Except.ok q, b.scope)) (ofOperand_same same _ _ _ _ _)⟩

/-- A binding keeps its quiet output, and a comment at its end does not hide the closer. -/
theorem parse_grouped_binding :
    let text := "x := n ? 1 : 2 // kept"
    ∃ (p : Parsed Nat) (scope' : TemplateScope Nat) (span : Span),
      parse text 0 TemplateScope.fresh = (.ok p, scope') ∧
      parse (grouped text) 7 TemplateScope.fresh = (.ok { p with span }, scope') := by
  intro text
  have unnamed : (parse text 0 (TemplateScope.fresh : TemplateScope Nat)).1.map (·.name) =
      .ok none := by decide +kernel
  obtain ⟨p, scope', hparse, hname⟩ := exists_unnamed unnamed
  obtain ⟨span, again⟩ := parse_grouped text 0 7 TemplateScope.fresh scope' p hparse hname
  exact ⟨p, scope', span, hparse, again⟩

end TagExpr
