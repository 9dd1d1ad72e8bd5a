import TagExpr.Proofs.Climbing.Lexemes

/-!
# Branches

A question mark waits on the operator stack while its branches are read. What is read inside a
branch stays above it: no operator of the branch is applied to what lies below, and the question
mark itself is applied only with what follows its second branch. So a ternary is read as its
derivation says wherever it stands, in a branch, in a literal or alone (`Ternary.ending`).
-/

namespace TagExpr

/-- The row of the colon. -/
def Operator.pairing : Operator := ⟨":", 16, .right, .colon⟩

/-- The rows of the question mark and the colon. -/
def Operator.Separates (op : Operator) : Prop := op = question ∨ op = pairing

namespace Operator.Separates

variable {op : Operator} (h : op.Separates)

include h

theorem not_isContainer : ¬ op.kind.isContainer := by
  rcases h with rfl | rfl <;> decide

theorem precedence : op.precedence = question.precedence := by
  rcases h with rfl | rfl <;> rfl

theorem associativity : op.associativity = .right := by
  rcases h with rfl | rfl <;> rfl

theorem hasLeft : op.kind.hasLeft := by
  rcases h with rfl | rfl <;> rfl

end Operator.Separates

namespace Climbing

open Parse

variable {ε : Type} {table left : List IdentKey} {below : Below} {b : Bench ε} {base : Nat}
  {lexemes : List String} {Q : Operand → Bench ε → Prop} {E : ParseError → Bench ε → Prop}

/-! ## Arms -/

/-- The operator of the frame binds tighter than a question mark. -/
def Frame.Tight (f : Frame) : Prop := f.row.precedence < Operator.question.precedence

theorem Frame.isContainer_row (f : Frame) : f.row.kind.isContainer = false := by
  cases f with
  | unary op => rw [row, op.kind_entry]; rfl
  | binary op => rw [row, op.kind_entry]; rfl

/-- It is applied before a question mark or a colon. -/
theorem Frame.Tight.yieldsTo {f : Frame} (h : f.Tight) {p : Pending} (hp : p.op = f.row)
    {op : Operator} (hop : op.Separates) : p.op.yieldsTo op := by
  have hlt : f.row.precedence < op.precedence := by
    rw [hop.precedence]
    exact h
  simp [Operator.yieldsTo, hp, f.isContainer_row, hop.hasLeft, hlt]

theorem Frame.not_isOpenTernary (f : Frame) {p : Pending} (hp : p.op = f.row) :
    isOpenTernary p = false := by
  have hk : p.op.kind ≠ .ternary := by
    rw [hp]
    cases f with
    | unary op => simp [row, op.kind_entry]
    | binary op => simp [row, op.kind_entry]
  simp [isOpenTernary, hk]

/-- The frames hold neither a container nor an open question mark. -/
theorem Stacked.operators {frames : List Frame} {ps : List Pending} {os : List Operand}
    (h : Stacked table below frames ps os) : ∃ above, ps = above ++ below.operators ∧
      ∀ p ∈ above, p.op.kind.isContainer = false ∧ isOpenTernary p = false := by
  have closed (f : Frame) {p : Pending} (hp : p.op = f.row) :
      p.op.kind.isContainer = false ∧ isOpenTernary p = false :=
    ⟨by rw [hp, f.isContainer_row], f.not_isOpenTernary hp⟩
  induction h with
  | nil => exact ⟨[], rfl, by simp⟩
  | @unary op p _ _ _ hp _ _ ih =>
    obtain ⟨above, rfl, hclosed⟩ := ih
    exact ⟨p :: above, rfl, List.forall_mem_cons.mpr ⟨closed (.unary op) hp, hclosed⟩⟩
  | @binary op x p _ _ _ _ hp _ _ _ ih =>
    obtain ⟨above, rfl, hclosed⟩ := ih
    exact ⟨p :: above, rfl, List.forall_mem_cons.mpr ⟨closed (.binary op x) hp, hclosed⟩⟩

/-- The arm has been read. -/
def Spans (table left : List IdentKey) (below : Below) (a : Arm) (b : Bench ε) : Prop :=
  ∃ frames x, (∀ f ∈ frames, Frame.Tight f) ∧ Reads table left below frames x b ∧
    resume frames x [] = a.chain.tree

/-- The rest of an arm is read, if what follows the arm goes on as it should. -/
theorem Arm.ending_tail (a : Arm) (tail : List (BinaryOp × Atom)) {frames : List Frame} {x : Tree}
    (htight : ∀ f ∈ frames, f.Tight)
    (h : Reads table (Tail.keys (Tail.bare tail) ++ left) below frames x b)
    (htree : resume frames x (Tail.bare tail) = a.chain.tree)
    (next : ∀ b', Spans table left below a b' → Ending base .operator lexemes b' Q E)
    (refuse : a.type? = none → ∀ e b', Refusal e → E e b') :
    Ending base .operator
      ((Tail.bare tail).flatMap (fun (op, term) => op.symbol :: term.lexemes) ++ lexemes)
      b Q E := by
  induction tail generalizing frames x b with
  | nil => exact next b ⟨frames, x, htight, h, htree⟩
  | cons link tail ih =>
    obtain ⟨op, atom⟩ := link
    have hkeys : Tail.keys (Tail.bare ((op, atom) :: tail)) ++ left =
        atom.keys ++ (Tail.keys (Tail.bare tail) ++ left) := by
      simp [Tail.keys, Tail.bare]
    rw [hkeys] at h
    refine ending_operator (lexes_binary op _ _) fun span at' => ?_
    refine (h.operator span op ⟨[], atom⟩ (Tail.bare tail) base at').mono ?_ ?_
    · rintro r b' ⟨rfl, frames', x', hsuffix, hwaits, heq⟩
      refine ⟨rfl, ending_operand (lexes_atom atom _) (by cases atom <;> simp [Atom.token]) ?_⟩
      intro nested span
      refine (hwaits.pushOperand span).mono ?_ fun _ _ he => he.elim
      rintro mode b'' ⟨rfl, hread⟩
      refine ih ?_ hread (heq.symm.trans htree)
      exact List.forall_mem_cons.mpr
        ⟨op.tighter_question, fun f hf => htight f (hsuffix.subset hf)⟩
    · rintro e b' ⟨hrefusal, hnone⟩
      exact refuse ((congrArg Tree.type? htree).symm.trans hnone) e b' hrefusal

theorem Arm.ending (a : Arm) (h : Waits table (a.keys ++ left) below [] b)
    (next : ∀ b', Spans table left below a b' → Ending base .operator lexemes b' Q E)
    (refuse : a.type? = none → ∀ e b', Refusal e → E e b') :
    Ending base .operand (a.lexemes ++ lexemes) b Q E := by
  rw [Arm.keys, List.append_assoc] at h
  refine ending_operand (lexes_atom a.head _) (by cases a.head <;> simp [Atom.token]) ?_
  intro nested span
  refine (h.pushOperand span).mono ?_ fun _ _ he => he.elim
  rintro mode b' ⟨rfl, hread⟩
  exact a.ending_tail a.tail (by simp) hread a.chain.tree_eq.symm next refuse

/-- The fragment `o` lies on what waits below, and nothing waits above it. -/
structure Rests (table left : List IdentKey) (below : Below) (o : Operand)
    (b : Bench ε) : Prop where
  mentions : Mentions table left b.scope b.tables
  operands : b.operands = ⟨o :: below.operands⟩
  operators : b.operators = ⟨below.operators⟩

theorem Reads.rests {x : Tree} (h : Reads table left below [] x b) :
    ∃ o, Holds table x o ∧ Rests table left below o b := by
  obtain ⟨o, os, hoperands, hx, hmentions, hstack⟩ := h
  obtain ⟨hps, hos⟩ : b.operators.toList = below.operators ∧ os = below.operands := hstack.eq_below
  exact ⟨o, hx, hmentions, by rw [hoperands, hos], congrArg Stack.mk hps⟩

theorem Rests.spans {a : Arm} {o : Operand} (h : Rests table left below o b)
    (ho : Holds table a.chain.tree o) : Spans table left below a b := by
  refine ⟨[], a.chain.tree, by simp, ⟨o, below.operands, h.operands, ho, h.mentions, ?_⟩, ?_⟩
  · simp only [h.operators]
    exact .nil
  · simp [resume, extend]

/-- If all tight operators are applied, the operators of an arm are. -/
theorem Spans.applyWhile {q : Pending → Bool} {a : Arm} (h : Spans table left below a b)
    (hq : ∀ f p, Frame.Tight f → p.op = f.row → q p) {Q : Unit → Bench ε → Prop}
    (next : ∀ o b', Holds table a.chain.tree o → Rests table left below o b' →
      Ends (applyWhile q below.operators) b' Q E)
    (refuse : a.type? = none → ∀ e b', Refusal e → E e b') :
    Ends (Parse.applyWhile q b.operators.toList) b Q E := by
  obtain ⟨frames, x, htight, hread, htree⟩ := h
  induction frames generalizing x b with
  | nil =>
    obtain ⟨o, hx, hrests⟩ := hread.rests
    have heq : x = a.chain.tree := by simpa [resume, extend] using htree
    rw [hrests.operators]
    exact next o b (heq ▸ hx) hrests
  | cons f frames ih =>
    obtain ⟨hf, htight⟩ := List.forall_mem_cons.mp htight
    obtain ⟨o, os, hoperands, hx, hwaits⟩ := id hread
    obtain ⟨p, ps, hps, hp⟩ := hwaits.stacked.top
    rw [resume_nil] at htree
    have hb : b.operators = ⟨p :: ps⟩ := congrArg Stack.mk hps
    rw [hb]
    refine hread.applyTop hb (hq f p hf hp) ?_ ?_
    · intro b' hread' hb'
      have hrest := ih (f.plug x) htight hread' htree
      rwa [hb'] at hrest
    · intro e b' hr hnone
      refine refuse ?_ e b' hr
      rw [Arm.type?, ← htree]
      exact type?_resume hnone _ _

/-! ## Waiting separators -/

/-- What waits below the second operand of a separator. -/
def Below.under (below : Below) (p : Pending) (hp : p.op.Separates)
    (os : List Operand) : Below where
  operators := p :: below.operators
  operands := os ++ below.operands
  floor := by
    rw [floorOf_cons_of_not hp.not_isContainer, List.length_append]
    exact Nat.le_add_left_of_le below.floor
  loose := by
    intro top htop
    cases htop
    exact .inr (Nat.le_of_eq hp.precedence.symm)

/-! ## Fragments -/

/-- The fragment holds what the ternary stands for. -/
structure Ternary.Holds (table : List IdentKey) (t : Ternary) (o : Operand) : Prop where
  node : o.node = t.node table
  type : t.type? = some o.type

theorem Ternary.Holds.not_isPair {t : Ternary} {o : Operand} (h : t.Holds table o) :
    ¬ o.isPair := by
  intro hp
  refine t.type?_ne_pair ?_
  rw [h.type]
  simpa [Operand.isPair] using hp

/-- A question mark whose colon has been seen is applied to its three operands. -/
theorem ends_apply_question {condition : Arm} {yes no : Ternary} {p : Pending} {x y z : Operand}
    {os : List Operand} (hp : p.op = .question) (hseen : p.extra = .colonSeen)
    (hx : Holds table condition.chain.tree x) (hy : yes.Holds table y) (hz : no.Holds table z)
    (hb : b.operands = ⟨z :: y :: x :: os⟩) (hf : floorOf b.operators.toList ≤ os.length) :
    Ends (apply p) b
      (fun _ b' => ∃ o, (Ternary.choice condition yes no).Holds table o ∧
        b' = { b with operands := ⟨o :: os⟩ }) (fun _ _ => False) := by
  have hk : p.op.kind = .ternary := by rw [hp]; rfl
  refine (ends_apply (N := noNames) hf (.ternary hk hseen) hb).mono ?_ ?_
  · rintro _ b' ⟨-, o, hbuilt, rfl⟩
    refine ⟨o, ?_, by simp [Pending.leave, hseen]⟩
    cases hbuilt with
    | ternary =>
      constructor
      · rw [Ternary.node, ← hy.node, ← hz.node, Arm.node, ← hx.node]
      · simp only [Ternary.type?, Arm.type?, hx.type, hy.type, hz.type]
  · intro e b' hr
    cases hr with
    | @pair _ o ho hpair =>
      simp only [List.mem_cons, List.not_mem_nil, or_false] at ho
      rcases ho with rfl | rfl | rfl
      · exact hx.not_isPair hpair
      · exact hy.not_isPair hpair
      · exact hz.not_isPair hpair

/-! ## Ternaries on the stacks -/

/-- The ternary has been read. Every question mark on the way to its last arm has its colon and
waits for what follows it. -/
def Unwinds (table left : List IdentKey) : Below → Ternary → Bench ε → Prop
  | below, .arm a, b => Spans table left below a b
  | below, .choice condition yes no, b =>
    ∃ p x y, ∃ hp : p.op = .question, p.extra = .colonSeen ∧ Holds table condition.chain.tree x ∧
      yes.Holds table y ∧ Unwinds table left (below.under p (.inl hp) [y, x]) no b

/-- If all operators down to a separator are applied, the whole ternary is. -/
theorem Unwinds.applyWhile {q : Pending → Bool} {t : Ternary} (h : Unwinds table left below t b)
    (hq : ∀ f p, Frame.Tight f → p.op = f.row → q p)
    (hseen : ∀ p, p.op = .question → p.extra = .colonSeen → q p) {Q : Unit → Bench ε → Prop}
    (next : ∀ o b', t.Holds table o → Rests table left below o b' →
      Ends (Parse.applyWhile q below.operators) b' Q E)
    (refuse : t.type? = none → ∀ e b', Refusal e → E e b') :
    Ends (Parse.applyWhile q b.operators.toList) b Q E := by
  induction t generalizing below with
  | arm a => exact Spans.applyWhile h hq (fun o b' ho => next o b' ⟨ho.node, ho.type⟩) refuse
  | choice condition yes no _ ih =>
    obtain ⟨p, x, y, hp, hextra, hx, hy, hno⟩ := h
    refine ih hno ?_ fun hnone => refuse (Ternary.type?_choice (.inr (.inr hnone)))
    intro z b' hz hrests
    refine (ends_applyWhile_top (hseen p hp hextra) below.operators).mpr ?_
    refine (ends_apply_question hp hextra hx hy hz (b := { b' with operators := ⟨below.operators⟩ })
      hrests.operands below.floor).mono ?_ fun _ _ he => he.elim
    rintro _ b'' ⟨o, ho, rfl⟩
    exact next o _ ho ⟨hrests.mentions, rfl, rfl⟩

/-- If the tight operators are applied and no others, the ternary stays read. -/
theorem Unwinds.applyTight {q : Pending → Bool} {t : Ternary} (h : Unwinds table left below t b)
    (hq : ∀ f p, Frame.Tight f → p.op = f.row → q p)
    (hstay : ∀ p, p.op = .question → q p = false)
    (hbelow : ∀ p ∈ below.operators.head?, q p = false) {Q : Unit → Bench ε → Prop}
    (next : ∀ b', Unwinds table left below t b' → Q () b')
    (refuse : t.type? = none → ∀ e b', Refusal e → E e b') :
    Ends (Parse.applyWhile q b.operators.toList) b Q E := by
  induction t generalizing below with
  | arm a =>
    refine Spans.applyWhile h hq ?_ refuse
    intro o b' ho hrests
    rw [ends_applyWhile_stay hbelow]
    exact next b' (hrests.spans ho)
  | choice condition yes no _ ih =>
    obtain ⟨p, x, y, hp, hextra, hx, hy, hno⟩ := h
    have htop : ∀ p' ∈ (below.under p (.inl hp) [y, x]).operators.head?, q p' = false := by
      intro p' hp'
      cases hp'
      exact hstay p hp
    exact ih hno htop (fun b' hno' => next b' ⟨p, x, y, hp, hextra, hx, hy, hno'⟩)
      fun hnone => refuse (Ternary.type?_choice (.inr (.inr hnone)))

/-- Neither a container nor an open question mark waits inside the ternary. -/
theorem Unwinds.operators {t : Ternary} (h : Unwinds table left below t b) :
    ∃ ps, b.operators.toList = ps ++ below.operators ∧
      ∀ p ∈ ps, p.op.kind.isContainer = false ∧ isOpenTernary p = false := by
  induction t generalizing below with
  | arm a =>
    obtain ⟨frames, x, -, ⟨o, os, -, -, hwaits⟩, -⟩ := h
    exact hwaits.stacked.operators
  | choice condition yes no _ ih =>
    obtain ⟨p, x, y, hp, hextra, -, -, hno⟩ := h
    obtain ⟨ps, hps, hclosed⟩ := ih hno
    refine ⟨ps ++ [p], by simpa [Below.under] using hps, ?_⟩
    intro p' hp'
    rcases List.mem_append.mp hp' with hp' | hp'
    · exact hclosed p' hp'
    · obtain rfl := List.mem_singleton.mp hp'
      exact ⟨by rw [hp]; rfl, by simp [isOpenTernary, hextra]⟩

/-! ## Question marks and colons -/

/-- A question mark after its condition waits, and its first branch begins. -/
theorem Spans.question {a : Arm} (h : Spans table left below a b) (span : Span) (base : Nat)
    (at_ : Cursor)
    (next : ∀ p x b', ∀ hp : p.op = .question, p.extra = .plain → Holds table a.chain.tree x →
      Waits table left (below.under p (.inl hp) [x]) [] b' →
      Ending base .operand lexemes b' Q E)
    (refuse : a.type? = none → ∀ e b', Refusal e → E e b') :
    Ends (operator "?" span base at_) b
      (fun r b' => r.2 = at_ ∧ Ending base r.1 lexemes b' Q E) E := by
  have hcloser : Operator.closers.contains "?" = false := rfl
  have hrow : Operator.findInfix? "?" = some .question := rfl
  have hkind : Operator.question.kind = .ternary := rfl
  simp only [Parse.operator, hcloser, hrow, hkind, Bool.false_eq_true, if_false, ends_bind,
    ends_pushOperator, ends_pure, Parse.reduceFor, Parse.reduceWhile, ends_get]
  refine h.applyWhile (fun f p hf hp => hf.yieldsTo hp (.inl rfl)) ?_ refuse
  intro x b' hx hrests
  rw [ends_applyWhile_stay fun p hp => below.not_yieldsTo hp (Nat.le_refl _) fun _ => rfl]
  refine ⟨trivial, next { op := .question, span, base := b'.operands.size } x _ rfl rfl hx
    ⟨hrests.mentions, ?_⟩⟩
  simp only [Stack.toList_push, hrests.operands, hrests.operators]
  exact .nil

theorem ends_operator_colon (span : Span) (base : Nat) (at_ : Cursor)
    {Q : LexMode × Cursor → Bench ε → Prop} :
    Ends (operator ":" span base at_) b Q E ↔
      Ends (colon .pairing span) b (fun _ b' => Q (.operand, at_) b') E := by
  have hcloser : Operator.closers.contains ":" = false := rfl
  have hrow : Operator.findInfix? ":" = some .pairing := rfl
  have hkind : Operator.pairing.kind = .colon := rfl
  simp only [Parse.operator, hcloser, hrow, hkind, Bool.false_eq_true, if_false, ends_bind,
    ends_pure]

/-- A colon closes the innermost open question mark, whatever has been read since. -/
theorem Unwinds.colon {p : Pending} {x : Operand} {yes : Ternary} (hp : p.op = .question)
    (h : Unwinds table left (below.under p (.inl hp) [x]) yes b) (hplain : p.extra = .plain)
    (span : Span) (base : Nat) (at_ : Cursor)
    (next : ∀ p' y b', ∀ hp' : p'.op = .question, p'.extra = .colonSeen → yes.Holds table y →
      Waits table left (below.under p' (.inl hp') [y, x]) [] b' →
      Ending base .operand lexemes b' Q E)
    (refuse : yes.type? = none → ∀ e b', Refusal e → E e b') :
    Ends (operator ":" span base at_) b
      (fun r b' => r.2 = at_ ∧ Ending base r.1 lexemes b' Q E) E := by
  have hopen : isOpenTernary p := by simp [isOpenTernary, hp, hplain, Operator.question]
  rw [ends_operator_colon, Parse.colon, Parse.reduceFor, Parse.reduceWhile]
  simp only [ends_bind, ends_get]
  have htop (q : Pending → Bool) (hq : q p = false) :
      ∀ p' ∈ (below.under p (.inl hp) [x]).operators.head?, q p' = false := by
    intro p' hp'
    cases hp'
    exact hq
  refine h.applyTight (fun f p hf hp => hf.yieldsTo hp (.inr rfl)) (fun p hp => by rw [hp]; rfl)
    (htop _ (by rw [hp]; rfl)) ?_ refuse
  intro b₁ h₁
  -- The question mark is in the region that the colon looks through.
  have hany : (b₁.operators.toList.takeWhile (!·.op.kind.isContainer)).any isOpenTernary := by
    obtain ⟨ps, hps, hclosed⟩ := h₁.operators
    have hnot : p.op.kind.isContainer = false := by rw [hp]; rfl
    rw [hps, List.takeWhile_append_of_pos (by simpa using fun p hp => (hclosed p hp).1)]
    simp [Below.under, hnot, hopen]
  rw [if_pos hany, ends_bind, Parse.reduceWhile, ends_bind, ends_get]
  refine h₁.applyWhile (fun f p _ hp => by rw [f.not_isOpenTernary hp]; rfl)
    (fun p _ hseen => by simp [isOpenTernary, hseen]) ?_ refuse
  intro y b₂ hy hrests
  rw [ends_applyWhile_stay (htop _ (by simp [hopen])), ends_modify]
  refine ⟨trivial, next { p with extra := .colonSeen } y _ hp rfl hy ⟨hrests.mentions, ?_⟩⟩
  simp only [hrests.operands, hrests.operators]
  exact .nil

/-! ## Runs over ternaries -/

/-- **A ternary is read as its derivation says**, whatever waits below it: if the run over what
follows the ternary ends well once it has been read, the run over the ternary does. -/
theorem Ternary.ending (t : Ternary) (h : Waits table (t.keys ++ left) below [] b)
    (next : ∀ b', Unwinds table left below t b' → Ending base .operator lexemes b' Q E)
    (refuse : t.type? = none → ∀ e b', Refusal e → E e b') :
    Ending base .operand (t.lexemes ++ lexemes) b Q E := by
  -- Each branch is read over its question mark, the second one once the first is a fragment.
  induction t generalizing below left lexemes b with
  | arm a => exact a.ending h next refuse
  | choice condition yes no ihy ihn =>
    simp only [Ternary.keys, List.append_assoc] at h
    simp only [Ternary.lexemes, List.append_assoc, List.cons_append]
    refine condition.ending h ?_ fun hnone => refuse (type?_choice (.inl hnone))
    intro b₁ hcondition
    refine ending_operator (lexes_mark (by decide) _) fun span at' => ?_
    refine hcondition.question span base at' ?_ fun hnone => refuse (type?_choice (.inl hnone))
    intro p x b₂ hp hplain hx hwaits
    refine ihy hwaits ?_ fun hnone => refuse (type?_choice (.inr (.inl hnone)))
    intro b₃ hyes
    refine ending_operator (lexes_mark (by decide) _) fun span at' => ?_
    refine hyes.colon hp hplain span base at' ?_ fun hnone =>
      refuse (type?_choice (.inr (.inl hnone)))
    intro p' y b₄ hp' hseen hy hwaits'
    refine ihn hwaits' ?_ fun hnone => refuse (type?_choice (.inr (.inr hnone)))
    intro b₅ hno
    exact next b₅ ⟨p', x, y, hp', hseen, hx, hy, hno⟩

end Climbing

end TagExpr
