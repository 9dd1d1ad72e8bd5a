import TagExpr.Proofs.Parse.Braces
import TagExpr.Proofs.Parse.Whole
import TagExpr.Proofs.Placing.Filler
import TagExpr.Proofs.Token.Spelling

/-!
# An expression in a string literal

The literal that is nothing but the interpolation of an expression means that expression: one part,
with its tree and its tables. This holds exactly of the texts in which braces and quotes pair up
(`interpolation_means`), and those of an expression do unless they are unpaired in a comment or in a
pattern literal.
-/

namespace TagExpr

/-- The contents of a literal that is one interpolation. -/
def hole (text : List Char) : List Char := '$' :: '\x7b' :: text ++ ['\x7d']

/-- The literal that is one interpolation. -/
def interpolation (text : String) : String := "\"$\x7b" ++ text ++ "\x7d\""

theorem toList_interpolation (text : String) :
    (interpolation text).toList = '"' :: hole text.toList ++ ['"'] := by
  simp [interpolation, hole]

theorem not_mem_hole {text : List Char} {c : Char} (hc : c ≠ '$' ∧ c ≠ '\x7b' ∧ c ≠ '\x7d')
    (h : c ∉ text) : c ∉ hole text := by
  simp [hole, hc.1, hc.2.1, hc.2.2, h]

/-! ## The literal is one token -/

namespace Token

variable {body : List Char}

theorem quotedExtent_body (hquote : '"' ∉ body) (hescape : '\\' ∉ body) :
    quotedExtent '"' true (body ++ ['"']) = ⟨body.length + 1, true⟩ := by
  rw [quotedExtent_through hquote hescape]
  rfl

/-- A text between double quotes is read as one literal. -/
theorem next_doubleQuoted (hquote : '"' ∉ body) (hescape : '\\' ∉ body) {at_ : Cursor}
    (hat : at_.rest = '"' :: body ++ ['"']) :
    ∃ span after, next .operand at_ = .ok (⟨.str body true, span⟩, after) ∧ after.rest = [] := by
  have hstarts : Starts at_.rest := by
    rw [hat]
    exact starts_cons rfl (by decide) (body ++ ['"'])
  have hskip : skip .operand at_ = .ok at_ := by simp only [skip, hstarts at_.offset]
  rw [next, hskip]
  exact read_quoted hat (quotedExtent_body hquote hescape)

end Token

namespace Parse

variable {ε : Type} {text : List Char} {b b' : Bench ε} {o : Operand}
  {E : ParseError → Bench ε → Prop}

/-! ## The literal is parsed as its source -/

/-- A text that is accepted is not blank. -/
theorem ends_rounds_not_blank (fuel base : Nat) (at_ : Cursor) :
    Ends (rounds fuel .operand base at_) b (fun _ _ => at_.rest.all Text.isBlank = false)
      (fun _ _ => True) := by
  cases fuel with
  | zero => trivial
  | succ fuel =>
    unfold rounds
    rw [ends_bind, ends_readToken]
    cases hnext : Token.next .operand at_ with
    | error e => trivial
    | ok r =>
      obtain ⟨token, after⟩ := r
      simp only
      by_cases hk : token.kind = .finish
      · rw [hk, ends_bind]
        exact ends_operand_finish (fun _ _ => trivial) trivial
      · obtain ⟨found, hskip, hread⟩ := Token.next_eq hnext
        obtain ⟨gap, hgap, -⟩ := Token.gap_of_skip hskip
        obtain ⟨lexeme, hne, hfound, hwritten⟩ := Token.read_written hread hk
        obtain ⟨c, hc, hblank⟩ := hwritten.exists_not_blank hne
        have hsome : at_.rest.all Text.isBlank = false := by
          rw [List.all_eq_false]
          exact ⟨c, by simp [hgap, hfound, hc], by simp [hblank]⟩
        have hany := answers_any (ε := ε) (do
          let mode ← operand (nestedParse fuel) token.kind (token.span.shift base)
          rounds fuel mode base after)
        exact (hany b).mono (fun _ _ _ => hsome) fun _ _ _ => trivial

/-- The fragments agree in what an expression takes over from its last one. -/
structure Operand.Same (o o' : Operand) : Prop where
  node : o'.node = o.node
  type : o'.type = o.type
  binds : o'.binds = o.binds

theorem Operand.Same.trans {o o' o'' : Operand} (h : o.Same o') (h' : o'.Same o'') : o.Same o'' :=
  ⟨h'.node.trans h.node, h'.type.trans h.type, h'.binds.trans h.binds⟩

/-- Wherever a text begins, and with any fuel that lasts, it is parsed alike. -/
theorem rounds_elsewhere {c c' : Cursor} (same : c'.rest = c.rest) {fuel fuel' base : Nat}
    (base' : Nat) {scope : TemplateScope ε} {tables : Tables ε} (hfuel : c.rest.length < fuel)
    (hfuel' : c'.rest.length < fuel')
    (hrun : rounds fuel .operand base c { scope, tables } = .ok o b) :
    ∃ o' b', rounds fuel' .operand base' c' { scope, tables } = .ok o' b' ∧
      o.Same o' ∧ b'.scope = b.scope ∧ b'.tables = b.tables := by
  have nothing : IsFiller false [] := .separators (by simp)
  have matched : Matches _ _ (rounds fuel .operand base c { scope, tables })
      (rounds fuel' .operand base' c' { scope, tables }) :=
    (Course.filled nothing).rounds (.same same) hfuel hfuel' scope tables
  rw [hrun] at matched
  cases hrun' : rounds fuel' .operand base' c' { scope, tables } with
  | error e b' =>
    rw [hrun'] at matched
    cases matched
  | ok o' b' =>
    rw [hrun'] at matched
    cases matched with
    | ok ho hb =>
      obtain ⟨-⟩ := ho
      exact ⟨_, b', rfl, ⟨rfl, rfl, rfl⟩, hb.scope.eq_of_likeness,
        hb.tables.trans b.tables.rename_id⟩

/-- At the end of the text the operand that is left is the answer. -/
theorem ends_rounds_end {fuel base : Nat} {at_ : Cursor} (hat : at_.rest = []) (ho : ¬ o.isPair)
    (hoperands : b.operands = ⟨[o]⟩) (hoperators : b.operators = .empty)
    {Q : Operand → Bench ε → Prop} (hQ : Q o b) :
    Ends (rounds (fuel + 1) .operator base at_) b Q E := by
  have hnext : Token.next .operator at_ = .ok (⟨.finish, Span.point at_.offset⟩, at_) := by
    obtain ⟨offset, rest⟩ := at_
    obtain rfl : rest = [] := hat
    rfl
  unfold rounds
  rw [ends_bind, ends_readToken, hnext]
  simp only [finish, reduceWhile, ends_bind, ends_get, hoperators, Stack.toList_empty, applyWhile,
    ends_pure, hoperands, ho, Bool.false_eq_true, if_false]
  exact hQ

/-- A text of one word that completes an operand comes to that operand. -/
theorem ends_rounds_word {fuel base : Nat} {at_ after : Cursor} {i : Ident} {span : Span}
    (hnext : Token.next .operand at_ = .ok (⟨.ident i, span⟩, after))
    (hafter : after.rest = []) {Q : Operand → Bench ε → Prop}
    (hident : Ends (ident i (span.shift base)) b
      (fun mode b' => mode = .operator ∧ ∃ o, ¬ o.isPair ∧ b'.operands = ⟨[o]⟩ ∧
        b'.operators = .empty ∧ Q o b') E) :
    Ends (rounds (fuel + 2) .operand base at_) b Q E := by
  unfold rounds
  rw [ends_bind, ends_readToken, hnext]
  simp only [operand, ends_bind]
  refine hident.mono ?_ fun _ _ he => he
  rintro _ b' ⟨rfl, o, ho, hoperands, hoperators, hQ⟩
  exact ends_rounds_end hafter ho hoperands hoperators hQ

/-- A text that is one literal ends as the literal does. -/
theorem ends_rounds_literal {fuel base : Nat} {at_ after : Cursor} {raw : List Char} {span : Span}
    (hnext : Token.next .operand at_ = .ok (⟨.str raw true, span⟩, after))
    (hafter : after.rest = []) {Q : Operand → Bench ε → Prop}
    (hstring : Ends (string (nestedParse (fuel + 1)) raw true (span.shift base)) b
      (fun o b' => ¬ o.isPair ∧ b'.operands = .empty ∧ b'.operators = .empty ∧
        Q o { b' with operands := ⟨[o]⟩ }) E) :
    Ends (rounds (fuel + 2) .operand base at_) b Q E := by
  unfold rounds
  rw [ends_bind, ends_readToken, hnext]
  simp only [operand, ends_bind, ends_pushOperand, ends_pure]
  refine hstring.mono ?_ fun _ _ he => he
  rintro o b' ⟨ho, hoperands, hoperators, hQ⟩
  have hpush : b'.operands.push o = ⟨[o]⟩ := by
    rw [hoperands]
    rfl
  rw [hpush]
  exact ends_rounds_end (b := { b' with operands := ⟨[o]⟩ }) hafter ho rfl hoperators hQ

/-- The literal around a balanced source means what the source means. -/
theorem ends_string_hole {fuel fuel' base : Nat} {scope : TemplateScope ε} {tables : Tables ε}
    (hx : scope.extensions.interpolation) (hescape : '\\' ∉ text)
    (hbalanced : Literal.Balanced text) (hfuel : text.length < fuel) (hfuel' : text.length < fuel')
    (hrun : rounds fuel .operand base (Cursor.start text) { scope, tables } = .ok o b)
    (span : Span) :
    Ends (string (nestedParse fuel') (hole text) true span) ({ scope, tables } : Bench ε)
      (fun o' b' => o' = { node := .concat [o.node], type := .string, span } ∧
        b' = { scope := b.scope, tables := b.tables.endScope tables.scopeMark })
      (fun _ _ => False) := by
  have hblank : text.all Text.isBlank = false := (ends_rounds_not_blank fuel base _).ok hrun
  obtain ⟨o', b', hrun', hsame, hscope, htables⟩ :=
    rounds_elsewhere rfl (span.start + 1 + 2) hfuel hfuel' hrun
  have hnested : nestedParse fuel' text (span.start + 1 + 2) { scope, tables } = .ok o' b' := hrun'
  simp only [string, hole, ends_bind, ends_get, hx, Bool.true_and, if_true,
    Literal.split_interpolation hescape hbalanced hblank, segments, isolated, ends_set, bind_assoc,
    ends_pure, pure_bind]
  rw [ends_of_ok hnested]
  simp only [ends_modify, hsame.node, hscope, htables]
  exact ⟨trivial, trivial⟩

theorem answers_segments {nested : List Char → Nat → Parse ε Operand} (base : Nat)
    (parts : List Literal.Segment) :
    Answers (fun nodes => nodes.length = parts.length) (segments nested base parts) := by
  induction parts with
  | nil => exact answers_pure rfl
  | cons part parts ih =>
    rw [segments_cons]
    refine (answers_any _).bind fun node _ => ?_
    refine ih.bind fun nodes hnodes => ?_
    exact answers_pure (by rw [List.length_cons, List.length_cons, hnodes])

/-- A literal that has one part is balanced. -/
theorem answers_string_hole {nested : List Char → Nat → Parse ε Operand} (hescape : '\\' ∉ text)
    (span : Span) :
    Answers (fun o => ∀ n, o.node = .concat [n] → Literal.Balanced text)
      (string nested (hole text) true span) := by
  unfold string
  refine (answers_any _).bind fun b _ => ?_
  split
  case isTrue =>
    split
    case h_1 => exact answers_throw _ _
    case h_2 => exact answers_pure fun n hn => nomatch hn
    case h_3 parts _ hsplit =>
      refine (answers_segments _ parts).bind fun nodes hnodes => ?_
      refine answers_pure fun n hn => ?_
      cases hn
      obtain ⟨part, rfl⟩ := List.length_eq_one_iff.mp hnodes.symm
      exact Literal.balanced_of_split hescape hsplit
  case isFalse =>
    split
    case h_1 => exact answers_throw _ _
    case h_2 => exact answers_pure fun n hn => nomatch hn

/-- A literal leaves nothing on the stacks. -/
theorem ends_string_stacks {fuel base : Nat} {at_ after : Cursor} {raw : List Char} {span : Span}
    (hnext : Token.next .operand at_ = .ok (⟨.str raw true, span⟩, after))
    (hfuel : at_.rest.length < fuel + 1) (scope : TemplateScope ε) :
    Ends (string (nestedParse fuel) raw true (span.shift base)) { scope, tables := {} }
      (fun o b' => ¬ o.isPair ∧ b'.operands = .empty ∧ b'.operators = .empty)
      (fun _ _ => True) := by
  refine (ends_string (fun source => words scope.extensions fuel .operand (Cursor.start source))
    (E := fun _ => True) (fun _ _ => trivial) (.fresh scope) ?_).mono ?_ fun _ _ _ => trivial
  · intro parts _ _ hsplit source start b' hcall M hg hd
    exact hcall.ends hnext hsplit hfuel hg hd
  · rintro o b' ⟨M, ht, hp, -⟩
    exact ⟨hp, ht.operands, ht.operators⟩

end Parse

open Parse

variable {ε : Type} {text : String} {offset : Nat} {scope scope' : TemplateScope ε} {p : Parsed ε}

/-! ## Whole texts -/

/-- A literal is no definition. -/
theorem definitionOf?_interpolation (extensions : Extensions) (text : String) :
    definitionOf? extensions (interpolation text) = none := by
  rw [definitionOf?_eq_none, toList_interpolation]
  intro _
  rfl

/-- What is accepted under no name is parsed from its first character on. -/
theorem parse_unnamed (h : parse text offset scope = (.ok p, scope'))
    (hname : p.name = none) :
    ∃ o b, (Round.start scope {} offset (Cursor.start text.toList)).run = .ok o b ∧
      scope' = b.scope ∧ Gathers (.start scope {} offset (Cursor.start text.toList)) o b p := by
  obtain ⟨r, o, b, hfirst, hrun, hscope, hp⟩ := parse_ok h
  have hdefining := hp.name.symm.trans hname
  unfold firstRound? at hfirst
  split at hfirst
  case h_1 =>
    cases hfirst
    exact ⟨o, b, hrun, hscope, hp⟩
  case h_2 =>
    split at hfirst
    case isTrue => cases hfirst
    case isFalse =>
      split at hfirst
      case h_1 => cases hfirst
      case h_2 =>
        cases hfirst
        cases hdefining

theorem parse_of_run {r : Round ε} {o : Operand} {b : Bench ε}
    (hfirst : firstRound? text offset scope = some r) (hrun : r.run = .ok o b) :
    ∃ p, parse text offset scope = (.ok p, b.scope) ∧ Gathers r o b p := by
  have hparse := parse_run text offset scope
  rw [hfirst] at hparse
  simp only [hrun] at hparse
  exact hparse

theorem next_interpolation (hquote : '"' ∉ text.toList) (hescape : '\\' ∉ text.toList) :
    ∃ span after, Token.next .operand (Cursor.start (interpolation text).toList) =
      .ok (⟨.str (hole text.toList) true, span⟩, after) ∧ after.rest = [] := by
  apply Token.next_doubleQuoted
  · exact not_mem_hole (by decide) hquote
  · exact not_mem_hole (by decide) hescape
  · exact toList_interpolation text

theorem firstRound?_interpolation (text : String) (offset : Nat) (scope : TemplateScope ε) :
    firstRound? (interpolation text) offset scope =
      some (.start scope {} offset (Cursor.start (interpolation text).toList)) := by
  rw [firstRound?, definitionOf?_interpolation]

theorem length_interpolation (text : String) :
    (interpolation text).toList.length = text.toList.length + 5 := by
  simp [toList_interpolation, hole]

theorem run_interpolation (text : String) (offset : Nat) (scope : TemplateScope ε) :
    (Round.start scope {} offset (Cursor.start (interpolation text).toList)).run =
      rounds (text.toList.length + 4 + 2) .operand offset
        (Cursor.start (interpolation text).toList) { scope, tables := {} } := by
  rw [Round.run, Round.start, Cursor.start, length_interpolation]

/-- The second expression is a literal whose only part is the first one, with the same tables. -/
structure Parsed.Interpolates (p q : Parsed ε) : Prop where
  node : q.node = .concat [p.node]
  identifiers : q.identifiers = p.identifiers
  expressions : q.expressions = p.expressions
  localCount : q.localCount = p.localCount

/-- The literal around a balanced source is accepted, and the source is its only part. -/
theorem parse_interpolation (hx : scope.extensions.interpolation)
    (hquote : '"' ∉ text.toList) (hescape : '\\' ∉ text.toList)
    (h : parse text offset scope = (.ok p, scope')) (hname : p.name = none)
    (hbalanced : Literal.Balanced text.toList) (offset' : Nat) :
    ∃ q, parse (interpolation text) offset' scope = (.ok q, scope') ∧ p.Interpolates q := by
  obtain ⟨o, b, hrun, rfl, hp⟩ := parse_unnamed h hname
  obtain ⟨span, after, hnext, hafter⟩ := next_interpolation hquote hescape
  have hends : Ends (rounds (text.toList.length + 4 + 2) .operand offset'
      (Cursor.start (interpolation text).toList)) { scope, tables := {} }
      (fun o' b' => o'.node = .concat [o.node] ∧ b'.scope = b.scope ∧
        b'.tables = b.tables.endScope 0) (fun _ _ => False) := by
    apply ends_rounds_literal hnext hafter
    have hfuel : text.toList.length < text.toList.length + 4 + 1 := by omega
    refine (ends_string_hole hx hescape hbalanced (Nat.lt_succ_self _) hfuel hrun _).mono ?_
      fun _ _ he => he
    rintro _ _ ⟨rfl, rfl⟩
    exact ⟨by simp [Operand.isPair], rfl, rfl, rfl, rfl, rfl⟩
  cases hrun' : (Round.start scope {} offset' (Cursor.start (interpolation text).toList)).run with
  | error e b' => exact (hends.error ((run_interpolation ..).symm.trans hrun')).elim
  | ok o' b' =>
    obtain ⟨hnode, hscope, htables⟩ := hends.ok ((run_interpolation ..).symm.trans hrun')
    obtain ⟨q, hparse, hq⟩ := parse_of_run (firstRound?_interpolation ..) hrun'
    refine ⟨q, ?_, ?_, ?_, ?_, ?_⟩
    · rw [hparse, hscope]
    · rw [hq.node, hnode, hp.node]
    · rw [hq.identifiers, htables, hp.identifiers]
      rfl
    · rw [hq.expressions, htables, hp.expressions]
      rfl
    · rw [hq.localCount, htables, hp.localCount]
      rfl

/-- The literal has one part around a balanced source only. -/
theorem balanced_of_parse (hquote : '"' ∉ text.toList) (hescape : '\\' ∉ text.toList)
    {q : Parsed ε} {n : Node} (h : parse (interpolation text) offset scope = (.ok q, scope'))
    (hnode : q.node = .concat [n]) : Literal.Balanced text.toList := by
  obtain ⟨r, o, b, hfirst, hrun, -, hq⟩ := parse_ok h
  obtain rfl := Option.some.inj (hfirst.symm.trans (firstRound?_interpolation ..))
  obtain ⟨span, after, hnext, hafter⟩ := next_interpolation hquote hescape
  have hends : Ends (rounds (text.toList.length + 4 + 2) .operand offset
      (Cursor.start (interpolation text).toList)) { scope, tables := {} }
      (fun o _ => ∀ n, o.node = .concat [n] → Literal.Balanced text.toList)
      (fun _ _ => True) := by
    apply ends_rounds_literal hnext hafter
    have hfuel : (interpolation text).toList.length < text.toList.length + 4 + 1 + 1 := by
      rw [length_interpolation]
      omega
    refine ((answers_string_hole hescape _ _).and (ends_string_stacks hnext hfuel scope)).mono ?_
      fun _ _ _ => trivial
    rintro o b ⟨hbalanced, hpair, hoperands, hoperators⟩
    exact ⟨hpair, hoperands, hoperators, hbalanced⟩
  exact hends.ok ((run_interpolation ..).symm.trans hrun) n (hq.node.symm.trans hnode)

/-- The fillers between the tokens of a text and the contents of its pattern literals. -/
def asidesOf (text : String) : List (List Char) :=
  asides (text.toList.length + 1) .operand (Cursor.start text.toList)

/-- An expression closes the braces and quotes that it opens, if its asides do. -/
theorem balanced_of_asides (hquote : '"' ∉ text.toList) (hescape : '\\' ∉ text.toList)
    (h : parse text offset scope = (.ok p, scope')) (hname : p.name = none)
    (hasides : ∀ aside ∈ asidesOf text, Literal.Balanced aside) :
    Literal.Balanced text.toList := by
  obtain ⟨o, b, hrun, -, -⟩ := parse_unnamed h hname
  have hstands : Stands _ .operand ({ scope, tables := {} } : Bench ε) [] :=
    ⟨.fresh scope, .start⟩
  exact (ends_rounds_braces offset hstands hquote hescape hasides).ok hrun

/-- **An interpolated expression means that expression**, if and only if braces and quotes pair up
in its text. They do where none is unpaired in a comment or in a pattern literal. -/
theorem interpolation_means (text : String) (offset offset' : Nat) (scope scope' : TemplateScope ε)
    (p : Parsed ε) (hx : scope.extensions.interpolation) (hquote : '"' ∉ text.toList)
    (hescape : '\\' ∉ text.toList) (h : parse text offset scope = (.ok p, scope'))
    (hname : p.name = none) :
    ((∀ aside ∈ asidesOf text, Literal.Balanced aside) → Literal.Balanced text.toList) ∧
    (Literal.Balanced text.toList →
      ∃ q, parse (interpolation text) offset' scope = (.ok q, scope') ∧ p.Interpolates q) ∧
    ∀ q scope'' n, parse (interpolation text) offset' scope = (.ok q, scope'') →
      q.node = .concat [n] → Literal.Balanced text.toList := by
  refine ⟨?_, ?_, ?_⟩
  · intro hasides
    exact balanced_of_asides hquote hescape h hname hasides
  · intro hbalanced
    exact parse_interpolation hx hquote hescape h hname hbalanced offset'
  · intro q scope'' n hparse hnode
    exact balanced_of_parse hquote hescape hparse hnode

theorem exists_unnamed (h : (parse text offset scope).1.map (·.name) = .ok none) :
    ∃ p scope', parse text offset scope = (.ok p, scope') ∧ p.name = none := by
  cases hparse : parse text offset scope with
  | mk result scope' =>
    rw [hparse] at h
    cases result with
    | error e => cases h
    | ok p => exact ⟨p, scope', rfl, Except.ok.inj h⟩

/-- A map with a brace in a key and braces in a pattern, and a comment behind it. -/
theorem interpolation_means_of_map :
    let text := "\x7b'\x7d': ~/x\x7b2\x7d/, k: n\x7d /* its braces */"
    ∃ (p q : Parsed Nat) (scope' : TemplateScope Nat),
      parse text 0 TemplateScope.fresh = (.ok p, scope') ∧
      parse (interpolation text) 3 TemplateScope.fresh = (.ok q, scope') ∧ p.Interpolates q := by
  intro text
  have hunnamed : (parse text 0 (TemplateScope.fresh : TemplateScope Nat)).1.map (·.name) =
      .ok none := by decide +kernel
  obtain ⟨p, scope', hparse, hname⟩ := exists_unnamed hunnamed
  have hasides : ∀ aside ∈ asidesOf text, Literal.Balanced aside := by decide +kernel
  obtain ⟨hbalanced, hmeans, -⟩ := interpolation_means text 0 3 TemplateScope.fresh scope' p rfl
    (by decide) (by decide) hparse hname
  obtain ⟨q, hq, hinterpolates⟩ := hmeans (hbalanced hasides)
  exact ⟨p, q, scope', hparse, hq, hinterpolates⟩

/-- A quote in a comment hides the brace that ends the interpolation. -/
theorem quote_in_comment_hides_brace :
    let text := "a /* it's */"
    ('"' ∉ text.toList ∧ '\\' ∉ text.toList) ∧
      (parse text 0 (TemplateScope.fresh : TemplateScope Nat)).1.map (·.name) = .ok none ∧
      (parse (interpolation text) 0 (TemplateScope.fresh : TemplateScope Nat)).1.map
        (fun _ => ()) = .error ⟨.lexical .unterminatedInterpolation, ⟨1, 16⟩⟩ := by
  intro text
  exact ⟨by decide, by decide +kernel, by decide +kernel⟩

end TagExpr
