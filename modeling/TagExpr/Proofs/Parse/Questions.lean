import TagExpr.Proofs.Parse.Marks
import TagExpr.Proofs.Parse.Whole

/-!
# Question marks need their colons

The question marks on the operator stack that have no colon yet are counted for every open region. A
round changes the counts by the marks of its token (`Turns`), and at the end of the text none may be
left. So an accepted text settles its marks, and a text is rejected if the question marks outnumber
the colons at top level or directly inside some container.
-/

namespace TagExpr.Parse

variable {ε : Type} {N : Names} {b b' b₁ : Bench ε} {w : List Word} {symbol : String} {span : Span}
  {ms : List Mark} {base : Nat} {at_ : Cursor}

/-! ## Open question marks -/

/-- How many question marks wait for their colons in each open region, the innermost one first and
that of the whole text last. -/
def openQuestions : List Pending → List Nat
  | [] => [0]
  | p :: ps =>
    if p.op.kind.isContainer then 0 :: openQuestions ps
    else if isOpenTernary p then (openQuestions ps).modifyHead (· + 1)
    else openQuestions ps

/-- Those on a bench. -/
def questions (b : Bench ε) : List Nat := openQuestions b.operators.toList

theorem openQuestions_cons (ps : List Pending) : ∃ n counts, openQuestions ps = n :: counts := by
  induction ps with
  | nil => exact ⟨0, [], rfl⟩
  | cons p ps ih =>
    obtain ⟨n, counts, hps⟩ := ih
    unfold openQuestions
    split
    · exact ⟨0, _, rfl⟩
    · split
      · exact ⟨n + 1, counts, by rw [hps, List.modifyHead_cons]⟩
      · exact ⟨n, counts, hps⟩

/-- Operators that are neither containers nor open question marks do not count. -/
theorem openQuestions_other (p : Pending) (ps : List Pending)
    (hcontainer : p.op.kind.isContainer = false) (hclosed : isOpenTernary p = false) :
    openQuestions (p :: ps) = openQuestions ps := by
  simp [openQuestions, hcontainer, hclosed]

theorem openQuestions_container {p : Pending} (h : p.op.kind.isContainer) (ps : List Pending) :
    openQuestions (p :: ps) = 0 :: openQuestions ps := by
  simp [openQuestions, h]

theorem openQuestions_ternary {p : Pending} (h : p.op.kind = .ternary) (hplain : p.extra = .plain)
    (ps : List Pending) :
    openQuestions (p :: ps) = (openQuestions ps).modifyHead (· + 1) := by
  have hcontainer : p.op.kind.isContainer = false := by rw [h]; rfl
  have hopen : isOpenTernary p := by simp [isOpenTernary, h, hplain]
  simp only [openQuestions, hcontainer, hopen, Bool.false_eq_true, if_false, if_true]

/-- None is open in the innermost region if none stands above its container. -/
theorem openQuestions_none {ps : List Pending}
    (h : ¬ (ps.takeWhile (!·.op.kind.isContainer)).any isOpenTernary) :
    ∃ counts, openQuestions ps = 0 :: counts := by
  induction ps with
  | nil => exact ⟨[], rfl⟩
  | cons p ps ih =>
    cases hc : p.op.kind.isContainer with
    | true => exact ⟨_, openQuestions_container hc ps⟩
    | false =>
      simp only [List.takeWhile_cons, hc, Bool.not_false, if_true, List.any_cons, Bool.or_eq_true,
        not_or, Bool.not_eq_true] at h
      rw [openQuestions_other p ps hc h.1]
      exact ih (by simpa using h.2)

/-! ## Marks and counts -/

/-- Reading the marks turns the counts of the first bench into those of the second one. -/
def Turns (b : Bench ε) (ms : List Mark) (b' : Bench ε) : Prop :=
  ∀ more, Mark.Settles (questions b') more → Mark.Settles (questions b) (ms ++ more)

/-- There is always an innermost region. -/
theorem Turns.intro (h : ∀ n counts more, questions b = n :: counts →
    Mark.Settles (questions b') more → Mark.Settles (n :: counts) (ms ++ more)) :
    Turns b ms b' := by
  intro more hmore
  obtain ⟨n, counts, hb⟩ : ∃ n counts, questions b = n :: counts := openQuestions_cons _
  rw [hb]
  exact h n counts more hb hmore

theorem turns_nil (h : questions b' = questions b) : Turns b [] b' := by
  intro more hmore
  rwa [h] at hmore

theorem turns_neutral (hms : Mark.Neutral ms) (h : questions b' = questions b) :
    Turns b ms b' := by
  refine Turns.intro fun n counts more hb hmore => hms n counts more ?_
  rwa [h, hb] at hmore

theorem turns_opens (h : questions b' = 0 :: questions b) : Turns b [.opens] b' := by
  refine Turns.intro fun n counts more hb hmore => ?_
  rw [h, hb] at hmore
  exact hmore

theorem turns_closes (h : questions b = 0 :: questions b') : Turns b [.closes] b' := by
  intro more hmore
  rw [h]
  exact ⟨rfl, hmore⟩

theorem turns_question (h : questions b' = (questions b).modifyHead (· + 1)) :
    Turns b [.question] b' := by
  refine Turns.intro fun n counts more hb hmore => ?_
  rw [h, hb, List.modifyHead_cons] at hmore
  exact hmore

theorem turns_colon (h : questions b' = (questions b).modifyHead (· - 1)) :
    Turns b [.colon] b' := by
  refine Turns.intro fun n counts more hb hmore => ?_
  rw [h, hb, List.modifyHead_cons] at hmore
  exact hmore

theorem questions_congr (h : b'.operators = b.operators) : questions b' = questions b := by
  rw [questions, questions, h]

/-! ## Waiting, applying and closing -/

/-- An operator starts to wait. -/
theorem turns_push {p : Pending} (hplain : p.op.kind = .ternary → p.extra = .plain)
    (h : questions b₁ = questions b) :
    Turns b (Mark.ofWaiting p.op.kind) { b₁ with operators := b₁.operators.push p } := by
  unfold Mark.ofWaiting
  split
  case isTrue hcontainer =>
    refine turns_opens ?_
    rw [← h]
    exact openQuestions_container hcontainer b₁.operators.toList
  case isFalse hcontainer =>
    split
    case isTrue hk =>
      refine turns_question ?_
      rw [← h]
      exact openQuestions_ternary hk (hplain hk) b₁.operators.toList
    case isFalse hk =>
      refine turns_nil ?_
      rw [← h]
      exact openQuestions_other p b₁.operators.toList (by simpa using hcontainer)
        (by simp [isOpenTernary, hk])

theorem Stands.questions_reduceWhile (h : Stands N .operator b w) (q : Pending → Bool) :
    Ends (Parse.reduceWhile q) b (fun _ b' => questions b' = questions b) (fun e _ => Regular e) :=
  h.reduceWhile_keeps (f := openQuestions) openQuestions_other q

/-- A closer ends the innermost region. -/
theorem turns_close
    (h : Ends reduceToContainer b (fun _ b' => Ready N b' w ∧ questions b' = questions b)
      (fun e _ => Regular e)) :
    Ends (close symbol span) b (fun _ b' => Turns b [.closes] b') (fun e _ => Regular e) := by
  refine (ends_closeTop h).mono ?_ fun _ _ he => he
  rintro _ b'' ⟨b', c, ps, receivers, elements, rest, u, v', v, hb, hcloser, -, hcloses⟩
  obtain ⟨-, M, b₁, o, hlooked, -, rfl⟩ := hcloses.closes
  have hcontainer : c.op.kind.isContainer := by rw [OpKind.isContainer, hcloser]; rfl
  refine turns_closes ?_
  rw [← hb, questions, hcloses.operators, openQuestions_container hcontainer, questions,
    hlooked.operators]

theorem Stands.turns_close (h : Stands N .operator b w) :
    Ends (Parse.close symbol span) b (fun _ b' => Turns b [.closes] b') (fun e _ => Regular e) :=
  Parse.turns_close ((h.ready.and (h.questions_reduceWhile _)).mono (fun _ _ hr => hr)
    fun _ _ he => he.1)

theorem Stands.turns_closeWithoutOperand (h : Stands N .operand b w) :
    Ends (Parse.closeWithoutOperand symbol span) b (fun _ b' => Turns b [.closes] b')
      (fun e _ => Regular e) := by
  apply h.ends_closeWithoutOperand
  intro hready
  have hopen : Ends reduceToContainer b
      (fun _ b' => Ready N b' w ∧ questions b' = questions b) (fun e _ => Regular e) :=
    hready.mono (fun _ _ hr => ⟨hr.1, congrArg questions hr.2⟩) fun _ _ he => he
  exact Parse.turns_close hopen

/-! ## Operators after an operand -/

/-- A colon closes an open question mark of its region, if there is one. -/
theorem Stands.turns_colon (h : Stands N .operator b w) {op : Operator} (hk : op.kind = .colon) :
    Ends (Parse.colon op span) b (fun _ b' => Turns b [.colon] b') (fun _ _ => True) := by
  unfold Parse.colon Parse.reduceFor
  rw [ends_bind]
  refine ((h.reduceWhile _).and (h.questions_reduceWhile _)).mono ?_ fun _ _ _ => trivial
  rintro _ b₁ ⟨⟨hs, -⟩, hb⟩
  rw [ends_bind, ends_get]
  simp only
  split
  case isTrue hany =>
    rw [ends_bind]
    refine ((hs.reduceWhile _).and (hs.questions_reduceWhile _)).mono ?_ fun _ _ _ => trivial
    rintro _ b₂ ⟨⟨-, hops⟩, hb'⟩
    obtain ⟨q, qs, hq, hkind, hextra⟩ := exists_openTernary hany
    rw [hq] at hops
    rw [ends_modify]
    refine Parse.turns_colon ?_
    obtain ⟨n, counts, hqs⟩ := openQuestions_cons qs
    have hclosed : openQuestions ({ q with extra := .colonSeen } :: qs) = openQuestions qs :=
      openQuestions_other _ qs (by simp only [hkind]; rfl) (by simp [isOpenTernary])
    rw [← hb, ← hb']
    simp only [questions, hops, Stack.toList_modifyAt, List.modify_zero_cons, hclosed,
      openQuestions_ternary hkind hextra, hqs, List.modifyHead_cons, Nat.add_sub_cancel]
  case isFalse hnone =>
    split
    case h_2 => trivial
    case h_1 =>
      split
      case isFalse => trivial
      case isTrue =>
        rw [ends_pushOperator]
        refine Parse.turns_colon ?_
        obtain ⟨counts, hcounts⟩ := openQuestions_none hnone
        have hother : openQuestions (b₁.operators.push
            { op, span, base := b₁.operands.size, extra := .plain }).toList =
            openQuestions b₁.operators.toList :=
          openQuestions_other _ _ (by simp only [hk]; rfl) (by simp [isOpenTernary, hk])
        rw [← hb]
        simp only [questions, hother, hcounts, List.modifyHead_cons, Nat.zero_sub]

/-- The name after a navigation operator opens a region if it is called. -/
theorem turns_navigate {op : Operator} {safe : Bool}
    (hcl : Operator.closers.contains symbol = false)
    (hop : Operator.findInfix? symbol = some op) (hk : op.kind = .navigate safe) :
    Ends (navigate safe span base at_) b
      (fun _ b' => Turns b (Mark.ofOperator symbol at_) b') (fun _ _ => True) := by
  unfold navigate
  rw [ends_bind, ends_readToken]
  cases hnext : Token.next .member at_ with
  | error e => trivial
  | ok r =>
    obtain ⟨⟨kind, memberSpan⟩, after⟩ := r
    rcases member_kind hnext with hfinish | ⟨name, call, hname⟩
    · cases hfinish
      trivial
    · cases hname
      have hmarks : Mark.ofOperator symbol at_ = Mark.ofWord (.member name call) := by
        simp only [Mark.ofOperator, hcl, hop, hk, Option.map_some, Bool.false_eq_true, if_false,
          operatorReach_of_navigate hcl hop hk hnext, List.flatMap_singleton]
      rw [hmarks]
      cases call with
      | true => exact turns_push (p := { op := .call, span := _, base := _, extra := _ }) nofun rfl
      | false =>
        simp only [Bool.false_eq_true, if_false]
        rw [ends_bind]
        refine (ends_popValue_operators _).mono ?_ fun _ _ _ => trivial
        intro receiver b' hb
        exact turns_nil (questions_congr hb)

/-- An operator symbol after an operand turns the counts as its marks say. -/
theorem Stands.turns_operator (h : Stands N .operator b w) (symbol : String) (span : Span)
    (base : Nat) (at_ : Cursor) :
    Ends (Parse.operator symbol span base at_) b
      (fun _ b' => Turns b (Mark.ofOperator symbol at_) b') (fun _ _ => True) := by
  unfold Parse.operator
  cases hcl : Operator.closers.contains symbol with
  | true =>
    have hmarks : Mark.ofOperator symbol at_ = [.closes] := by
      simp only [Mark.ofOperator, hcl, if_true]
    rw [if_pos rfl, ends_bind, hmarks]
    exact h.turns_close.mono (fun _ _ hp => hp) fun _ _ _ => trivial
  | false =>
    rw [if_neg (by simp)]
    cases hop : Operator.findInfix? symbol with
    | none => trivial
    | some op =>
      simp only
      split
      case h_1 safe hk => exact turns_navigate hcl hop hk
      case h_2 hk =>
        have hmarks : Mark.ofOperator symbol at_ = [.colon] := by
          simp only [Mark.ofOperator, hcl, hop, hk, Option.map_some, Bool.false_eq_true, if_false]
        rw [ends_bind, hmarks]
        exact (h.turns_colon hk).mono (fun _ _ hp => hp) fun _ _ _ => trivial
      case h_3 hnav hcolon =>
        have hmarks : Mark.ofOperator symbol at_ = Mark.ofWaiting op.kind := by
          simp only [Mark.ofOperator, hcl, hop, Option.map_some, Bool.false_eq_true, if_false]
        rw [reduceFor, ends_bind, hmarks]
        refine ((h.reduceWhile _).and (h.questions_reduceWhile _)).mono ?_ fun _ _ _ => trivial
        rintro _ b₁ ⟨⟨hs, -⟩, hb⟩
        obtain ⟨o, below, -, hpeek⟩ := hs.peek
        -- Whatever is settled before the operator waits, the operators below it stay.
        have wait {b₂ : Bench ε} (hops : b₂.operators = b₁.operators) (extra : Extra)
            (hplain : op.kind = .ternary → extra = .plain) (after : Cursor) : Ends (do
              pushOperator op span extra
              return (LexMode.operand, after)) b₂
              (fun _ b' => Turns b (Mark.ofWaiting op.kind) b') (fun _ _ => True) := by
          rw [ends_bind, ends_pushOperator, ends_pure]
          exact turns_push (p := { op, span, base := b₂.operands.size, extra }) hplain
            ((questions_congr hops).trans hb)
        split
        case h_1 hk =>
          rw [ends_bind]
          refine (ends_assignmentTarget hs.describes hpeek span).mono ?_ fun _ _ _ => trivial
          rintro extra b₂ ⟨M, ht, -⟩
          exact wait ht.operators extra (by simp [hk]) at_
        case h_2 hk =>
          rw [ends_bind]
          refine (ends_bindingTarget hs.describes hpeek span).mono ?_ fun _ _ _ => trivial
          rintro extra b₂ ⟨M, ht, -⟩
          exact wait ht.operators extra (by simp [hk]) at_
        case h_3 hk =>
          rw [ends_bind]
          refine (ends_streamClause hs.describes at_).mono ?_ fun _ _ he => he
          rintro ⟨extra, after⟩ b₂ ⟨-, M, _, _, ht, -⟩
          exact wait ht.operators extra (by simp [hk]) after
        case h_4 => exact wait rfl .plain (fun _ => rfl) at_

/-! ## Operands -/

variable {nested : List Char → Nat → Parse ε Operand} {nestedMarks : List Char → List Mark}

theorem turns_ident (hd : Describes N b.tables b.scope) (i : Ident) :
    Ends (ident i span) b (fun _ b' => Turns b (Mark.ofWord (.ofIdent i)) b')
      (fun _ _ => True) := by
  -- A call waits for its arguments.
  have opens (extra : Extra) :
      Ends (pushOperator .call span extra : Parse ε Unit) b
        (fun _ b' => Turns b [.opens] b') (fun _ _ => True) := by
    rw [ends_pushOperator]
    exact turns_push (p := { op := .call, span, base := b.operands.size, extra }) nofun rfl
  obtain ⟨kind, lookup, call⟩ := i
  unfold ident
  cases kind with
  | current levels => exact turns_nil rfl
  | internal name =>
    simp only
    split
    case h_1 => trivial
    case h_2 =>
      cases call with
      | true => trivial
      | false => exact turns_nil rfl
  | annotated name =>
    simp only [ends_bind, ends_get]
    split
    case isTrue => trivial
    case isFalse =>
      cases call with
      | true => exact opens (.annotated name)
      | false => exact turns_nil rfl
  | name name =>
    cases call with
    | true => exact opens (.bareCall name lookup)
    | false =>
      simp only [Bool.false_eq_true, if_false]
      rw [ends_bind]
      refine (ends_resolveName hd name lookup span).mono ?_ fun _ _ he => he
      rintro o b₁ ⟨M, hlooked, -⟩
      exact turns_nil (questions_congr hlooked.operators)

/-- The sources of a literal are regions of their own. -/
theorem ends_segments_neutral {parts : List Literal.Segment}
    (hnested : ∀ source start b', Calls nested base parts b source start b' →
      Ends (nested source start) b' (fun _ _ => Mark.Settles [0] (nestedMarks source))
        (fun _ _ => True)) :
    Ends (segments nested base parts) b
      (fun _ _ => Mark.Neutral (parts.flatMap (Mark.ofSegment nestedMarks))) (fun _ _ => True) := by
  induction parts generalizing b with
  | nil => exact Mark.neutral_nil
  | cons part parts ih =>
    have hpart : Ends (segment nested base part) b
        (fun _ _ => Mark.Neutral (Mark.ofSegment nestedMarks part)) (fun _ _ => True) := by
      cases part with
      | text => exact Mark.neutral_nil
      | name => exact ends_of_forall fun _ _ => Mark.neutral_nil
      | expression source place =>
        rw [segment, ends_map]
        simp only [isolated, ends_bind, ends_get, ends_set]
        refine (hnested source _ _ .head).mono ?_ fun _ _ _ => trivial
        intro o b₁ hsettled
        exact Mark.neutral_enclosed hsettled
    rw [segments_cons, ends_bind]
    refine hpart.and_self.mono ?_ fun _ _ _ => trivial
    rintro node b₁ ⟨hneutral, hrun⟩
    rw [ends_bind]
    refine (ih fun source start b' hcall => hnested source start b' (hcall.cons hrun)).mono ?_
      fun _ _ _ => trivial
    intro nodes b₂ hrest
    exact hneutral.append hrest

theorem ends_string_neutral {raw : List Char} {doubleQuoted : Bool}
    (hnested : ∀ parts, doubleQuoted → b.scope.extensions.interpolation →
      Literal.split raw = .ok parts → ∀ source start b',
      Calls nested (span.start + 1) parts b source start b' →
      Ends (nested source start) b' (fun _ _ => Mark.Settles [0] (nestedMarks source))
        (fun _ _ => True)) :
    Ends (string nested raw doubleQuoted span) b
      (fun _ _ => Mark.Neutral
        (Mark.ofOperand b.scope.extensions nestedMarks (.str raw doubleQuoted)))
      (fun _ _ => True) := by
  simp only [string, Mark.ofOperand, ends_bind, ends_get]
  cases hq : doubleQuoted && b.scope.extensions.interpolation with
  | true =>
    rw [Bool.and_eq_true] at hq
    simp only [if_true]
    cases hs : Literal.split raw with
    | error e => trivial
    | ok parts =>
      simp only
      split
      case h_1 heq => cases heq
      case h_2 whole heq =>
        cases heq
        exact Mark.neutral_nil
      case h_3 heq =>
        cases heq
        rw [ends_bind]
        exact ends_segments_neutral (hnested parts hq.1 hq.2 hs)
  | false =>
    simp only [Bool.false_eq_true, if_false]
    cases Literal.unescape raw with
    | error e => trivial
    | ok whole => exact Mark.neutral_nil

variable (nested) in
/-- A token in operand position turns the counts as its marks say. -/
theorem Stands.turns_operand (h : Stands N .operand b w) {kind : TokenKind}
    (hstring : ∀ raw doubleQuoted, kind = .str raw doubleQuoted →
      Ends (string nested raw doubleQuoted span) b
        (fun _ b' => b'.operators = b.operators ∧
          Mark.Neutral (Mark.ofOperand b.scope.extensions nestedMarks kind)) (fun _ _ => True)) :
    Ends (Parse.operand nested kind span) b
      (fun _ b' => Turns b (Mark.ofOperand b.scope.extensions nestedMarks kind) b')
      (fun _ _ => True) := by
  unfold Parse.operand
  cases kind with
  | null | bool | int | double | regex | emptyMap => exact turns_nil rfl
  | str raw doubleQuoted =>
    simp only
    rw [ends_bind]
    refine (hstring raw doubleQuoted rfl).mono ?_ fun _ _ _ => trivial
    rintro o b₁ ⟨hops, hneutral⟩
    exact turns_neutral hneutral (questions_congr hops)
  | ident i => exact turns_ident h.describes i
  | operator symbol =>
    simp only [Mark.ofOperand]
    cases hcl : Operator.closers.contains symbol with
    | true =>
      simp only [if_true]
      rw [ends_bind]
      exact h.turns_closeWithoutOperand.mono (fun _ _ hp => hp) fun _ _ _ => trivial
    | false =>
      simp only [Bool.false_eq_true, if_false]
      cases hop : Operator.findPrefix? symbol with
      | none => trivial
      | some op =>
        simp only
        rw [ends_bind, ends_pushOperator, ends_pure]
        exact turns_push (p := { op, span, base := b.operands.size }) (fun _ => rfl) rfl
  | comma => trivial
  | finish =>
    simp only [ends_bind, ends_get]
    split <;> trivial

/-! ## Whole texts -/

/-- At the end of the text no question mark is left without its colon. -/
theorem Stands.questions_finish (h : Stands N .operator b w) :
    Ends (Parse.finish span) b (fun _ _ => questions b = [0]) (fun _ _ => True) := by
  unfold Parse.finish
  rw [ends_bind]
  refine ((h.reduceWhile _).and (h.questions_reduceWhile _)).mono ?_ fun _ _ _ => trivial
  rintro _ b' ⟨⟨-, hops⟩, hb⟩
  have hnil : b'.operators.toList = [] := by simp [hops]
  have hnone : questions b = [0] := by
    rw [← hb, questions, hnil]
    rfl
  exact ends_of_forall fun _ _ => hnone

/-- No question mark is open where an interpolated source begins. -/
theorem Calls.questions {parts : List Literal.Segment} {source : List Char} {start : Nat}
    (h : Calls nested base parts b source start b') : questions b' = [0] := by
  obtain ⟨-, -, -, -, b₁, -, -, -, rfl⟩ := h
  rfl

/-- **An accepted text settles its marks**: every question mark has its colon where its region
ends. -/
theorem ends_rounds_settles {fuel : Nat} {mode : LexMode} (base : Nat) {at_ : Cursor}
    (h : Stands N mode b w) (hfuel : at_.rest.length < fuel) :
    Ends (rounds fuel mode base at_) b
      (fun _ _ => Mark.Settles (questions b) (marks N.extensions fuel mode at_))
      (fun _ _ => True) := by
  -- The induction is on the fuel, since an interpolated source is parsed with what is left of it.
  induction fuel generalizing N b w mode base at_ with
  | zero => omega
  | succ fuel ih =>
    -- What the rounds after the token settle, this one settles if the token turns the counts.
    have next {mode' : LexMode} {base' : Nat} {after : Cursor} {b' : Bench ε} {M : Names}
        {v : List Word} {own : List Mark} (hg : N.Grows M) (hs : Stands M mode' b' v)
        (hlen : after.rest.length < fuel) (hturns : Turns b own b')
        (hmarks : marks N.extensions (fuel + 1) mode at_ =
          own ++ marks N.extensions fuel mode' after) :
        Ends (rounds fuel mode' base' after) b'
          (fun _ _ => Mark.Settles (questions b) (marks N.extensions (fuel + 1) mode at_))
          (fun _ _ => True) := by
      refine (ih base' hs hlen).mono ?_ fun _ _ he => he
      intro o b'' hsettles
      rw [hmarks, ← hg.extensions]
      exact hturns _ hsettles
    unfold rounds
    rw [ends_bind, ends_readToken]
    cases hnext : Token.next mode at_ with
    | error e => trivial
    | ok r =>
      obtain ⟨⟨kind, span⟩, after⟩ := r
      cases mode with
      | member => cases h.layout
      | operand =>
        simp only
        rw [ends_bind]
        by_cases hk : kind = .finish
        · subst hk
          exact ends_operand_finish (E := fun _ => True) (fun _ _ => trivial) trivial
        · have hlen := Token.length_next hnext hk
          have hyields (raw : List Char) (parts : List Literal.Segment)
              (hstr : kind = .str raw true) (_ : b.scope.extensions.interpolation)
              (hsplit : Literal.split raw = .ok parts) (source : List Char) (start : Nat)
              (b' : Bench ε) (hcall : Calls (nestedParse fuel) ((span.shift base).start + 1) parts b
                source start b') (M : Names) (hg : N.Grows M)
              (hd : Describes M b'.tables b'.scope) :
              Ends (nestedParse fuel source start) b'
                (Yields M (words N.extensions fuel .operand (Cursor.start source)))
                (fun _ _ => True) := by
            subst hstr
            exact hcall.ends hnext hsplit hfuel hg hd
          have hturns : Ends (Parse.operand (nestedParse fuel) kind (span.shift base)) b
              (fun _ b' => Turns b (Mark.ofOperand b.scope.extensions
                (fun source => marks N.extensions fuel .operand (Cursor.start source)) kind) b')
              (fun _ _ => True) := by
            refine h.turns_operand _ fun raw doubleQuoted hstr => ?_
            subst hstr
            have hstring : Ends (string (nestedParse fuel) raw doubleQuoted (span.shift base)) b
                _ (fun _ _ => True) :=
              ends_string (fun source => words N.extensions fuel .operand (Cursor.start source))
                (fun _ _ => trivial) h.describes fun parts hq => hyields raw parts (by rw [hq])
            have hneutral : Ends (string (nestedParse fuel) raw doubleQuoted (span.shift base)) b
                (fun _ _ => Mark.Neutral (Mark.ofOperand b.scope.extensions
                  (fun source => marks N.extensions fuel .operand (Cursor.start source))
                  (.str raw doubleQuoted))) (fun _ _ => True) := by
              refine ends_string_neutral fun parts hq _ hsplit source start b' hcall => ?_
              obtain rfl : doubleQuoted = true := hq
              obtain ⟨M, hg, hd⟩ := hcall.describes hnext hsplit hfuel h.describes
              have hsource : (Cursor.start source).rest.length < fuel := by
                have := hcall.length_lt hsplit
                have := (Token.infix_of_str hnext).length_le
                show source.length < fuel
                omega
              have hsettles := ih start (hcall.stands hd) hsource
              rwa [hcall.questions, hg.extensions] at hsettles
            refine (hstring.and hneutral).mono ?_ fun _ _ _ => trivial
            rintro o b₁ ⟨⟨M, ht, -⟩, hneutral⟩
            exact ⟨ht.operators, hneutral⟩
          have hstands := h.operand (nestedParse fuel)
            (fun source => words N.extensions fuel .operand (Cursor.start source))
            (span.shift base) (E := fun _ => True) (fun _ _ => trivial) hk hyields
          refine (hturns.and hstands).mono ?_ fun _ _ _ => trivial
          rintro mode' b₁ ⟨hturns, rfl, M, hg, hs⟩
          rw [← h.describes.extensions] at hturns
          exact next hg hs (by omega) hturns (by simp only [marks, hnext])
      | operator =>
        cases kind with
        | finish =>
          refine h.questions_finish.mono ?_ fun _ _ he => he
          intro o b' hnone
          simp [marks, hnext, hnone, Mark.Settles]
        | comma =>
          have hlen := Token.length_next hnext (by simp)
          simp only
          rw [ends_bind]
          have hkeeps := h.comma_keeps (f := openQuestions) openQuestions_other
            (fun _ _ _ => rfl) (span.shift base)
          refine (hkeeps.and (h.comma (span.shift base))).mono ?_ fun _ _ _ => trivial
          rintro _ b₁ ⟨hb, hs⟩
          exact next (.refl N) hs (by omega) (turns_nil hb) (by simp [marks, hnext])
        | operator symbol =>
          have hlen := Token.length_next hnext (by simp)
          have hreach := length_operatorReach symbol after
          simp only
          rw [ends_bind]
          refine ((h.turns_operator symbol (span.shift base) base after).and
            (h.operator symbol (span.shift base) base after)).mono ?_ fun _ _ _ => trivial
          rintro ⟨mode', after'⟩ b₁ ⟨hturns, heq, M, hg, hs⟩
          obtain ⟨rfl, rfl⟩ := Prod.ext_iff.mp heq
          exact next hg hs (by simp only at hreach ⊢; omega) hturns (by simp only [marks, hnext])
        | _ => trivial

/-- A text whose question marks outnumber the colons at top level or directly inside some container
is no expression. -/
theorem parse_outnumbered (text : String) (offset : Nat) (scope : TemplateScope ε)
    (h : Mark.Outnumbered (marksOf scope.extensions text)) :
    ∃ e, (parse text offset scope).1 = .error e := by
  cases hparse : parse text offset scope with
  | mk result scope' =>
    cases result with
    | error e => exact ⟨e, rfl⟩
    | ok p =>
      obtain ⟨r, o, b, hfirst, hrun, -, -⟩ := parse_ok hparse
      obtain ⟨N, hs, hext, -⟩ := firstRound?_stands hfirst
      have hstart := firstRound?_start hfirst
      have hmode : r.mode = .operand := by rw [hstart]; rfl
      have hmarks : marks N.extensions r.fuel r.mode r.at_ = marksOf scope.extensions text := by
        rw [hext, hstart]
        rfl
      have hnone : questions r.bench = [0] := by
        rw [hstart]
        rfl
      have hs' : Stands N r.mode r.bench [] := by
        rw [hmode]
        exact hs
      have hsettles := (ends_rounds_settles r.base hs' (firstRound?_laidOut hfirst).2).ok hrun
      rw [hnone, hmarks] at hsettles
      exact absurd h hsettles.not_outnumbered

/-- The colon between the parentheses does not belong to the question mark in front of them. -/
example : Mark.Outnumbered (marksOf .all "[a ? (b : c)]") := by decide

end TagExpr.Parse
