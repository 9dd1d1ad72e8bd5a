import TagExpr.Parse.Parser
import TagExpr.Proofs.Parse.Reduction

/-!
# Commas and closers

A comma counts one element of the innermost container, a closer makes one fragment of all of them.
Both find exactly as many operands above the base of the container as it has commas, and one more in
operator position, so neither a missing element nor a forbidden trailing comma can come up.
-/

namespace TagExpr.Parse

variable {ε : Type} {N : Names} {b : Bench ε} {w : List Word}

/-! ## Tables -/

/-- A step changed the tables and nothing else, and `M` describes them. -/
structure Tabled (N M : Names) (b b' : Bench ε) : Prop where
  grows : N.Grows M
  describes : Describes M b'.tables b'.scope
  operands : b'.operands = b.operands
  operators : b'.operators = b.operators

theorem Tabled.trans {M L : Names} {b₁ b₂ : Bench ε} (h : Tabled N M b b₁) (h' : Tabled M L b₁ b₂) :
    Tabled N L b b₂ :=
  ⟨h.grows.trans h'.grows, h'.describes, h'.operands.trans h.operands,
    h'.operators.trans h.operators⟩

theorem Tabled.refl (h : Describes N b.tables b.scope) : Tabled N N b b := ⟨.refl N, h, rfl, rfl⟩

/-- The step declared nothing: neither locals nor bindings have come to the tables and the scope. -/
structure Looked (N M : Names) (b b' : Bench ε) : Prop extends Tabled N M b b' where
  locals : b'.tables.locals = b.tables.locals
  localCount : b'.tables.localCount = b.tables.localCount
  scope : b'.scope = b.scope

theorem Looked.refl (h : Describes N b.tables b.scope) : Looked N N b b :=
  ⟨.refl h, rfl, rfl, rfl⟩

theorem Looked.trans {M L : Names} {b₁ b₂ : Bench ε} (h : Looked N M b b₁) (h' : Looked M L b₁ b₂) :
    Looked N L b b₂ :=
  ⟨h.toTabled.trans h'.toTabled, h'.locals.trans h.locals, h'.localCount.trans h.localCount,
    h'.scope.trans h.scope⟩

theorem Tables.locals_identifier (t : Tables ε) (key : IdentKey) :
    (t.identifier key).2.locals = t.locals ∧ (t.identifier key).2.localCount = t.localCount := by
  unfold Tables.identifier
  split <;> exact ⟨rfl, rfl⟩

theorem Tables.locals_expression (t : Tables ε) (name : String) (e : ε) :
    (t.expression name e).2.locals = t.locals ∧
      (t.expression name e).2.localCount = t.localCount := by
  unfold Tables.expression
  split <;> exact ⟨rfl, rfl⟩

theorem ends_identifier (h : Describes N b.tables b.scope) (key : IdentKey)
    {E : ParseError → Bench ε → Prop} :
    Ends (identifier key) b
      (fun ident b' => ∃ M, Looked N M b b' ∧ M.identifiers[ident]? = some key) E := by
  obtain ⟨M, hg, hd, hi⟩ := h.identifier key
  obtain ⟨hlocals, hcount⟩ := b.tables.locals_identifier key
  exact ⟨M, ⟨⟨hg, hd, rfl, rfl⟩, hlocals, hcount, rfl⟩, hi⟩

theorem ends_namedCall? (h : Describes N b.tables b.scope) (name : String) (args : List Node)
    {E : ParseError → Bench ε → Prop} :
    Ends (namedCall? name args) b
      (fun node b' => ∃ M, Looked N M b b' ∧ (∀ n ∈ node, Callee M name args n) ∧
        (node = none → M.callable name = false)) E := by
  have hsame : Looked N N b b := .refl h
  have hcall : N.callable name = canCall b.scope b.tables.defining name := by rw [h.callable]
  simp only [namedCall?, ends_bind, ends_get]
  by_cases hx : b.scope.extensions.namedExpressions
  · have hx' : N.extensions.namedExpressions := by rwa [h.extensions]
    simp only [hx, Bool.not_true, Bool.false_eq_true, if_false]
    cases hnamed : b.scope.named? name with
    | none => exact ⟨N, hsame, by simp, fun _ => by simp [hcall, canCall, hnamed]⟩
    | some entry =>
      cases entry with
      | pending =>
        by_cases hdef : b.tables.defining = some name
        · simp only [hdef, if_true]
          refine ⟨N, hsame, fun n hn => ?_, by simp⟩
          cases hn
          exact .recurse hx' (h.defining.trans hdef)
        · simp only [hdef, if_false]
          exact ⟨N, hsame, by simp, fun _ => by simp [hcall, canCall, hnamed, hdef]⟩
      | defined e =>
        obtain ⟨M, hg, hd, ht⟩ := h.expression hnamed
        obtain ⟨hlocals, hcount⟩ := b.tables.locals_expression name e
        refine ⟨M, ⟨⟨hg, hd, rfl, rfl⟩, hlocals, hcount, rfl⟩, fun n hn => ?_, by simp⟩
        cases hn
        exact .named (hg.extensions ▸ hx') ht
  · simp only [hx, Bool.not_false, if_true]
    exact ⟨N, hsame, by simp, fun _ => by simp [hcall, canCall, hx]⟩

/-! ## One container -/

/-- The fragment of a closed container takes the place of its elements and of the operand that the
container takes. -/
theorem Layout.closed {M : Names} {c : Pending} {ps : List Pending} {close : Span}
    {receivers elements below : List Operand} {o : Operand} {u v v' : List Word}
    (h : Layout M .operand below ps u) (hr : Derives M receivers v')
    (hrp : ∀ r ∈ receivers, ¬ r.isPair) (he : Derives M elements v)
    (hc : Closed M c close receivers elements o) :
    Layout M .operator (o :: below) ps (u ++ v' ++ c.words ++ v) := by
  have hpair : ¬ o.isPair := by
    cases hc with
    | group _ _ hp => exact hp
    | _ => simp [Operand.isPair, Operand.object]
  have hl := Layout.value h (.closed hr hrp he hc) (fun hp => absurd hp hpair)
  simpa [List.append_assoc] using hl

/-- Entries stand in list and set literals only, so the arguments of a call are complete. -/
theorem not_isPair_of_call {kind : OpKind} {elements : List Operand} (hk : kind = .call)
    (hpairs : ∀ e ∈ elements, e.isPair → kind = .listLiteral ∨ kind = .setLiteral) :
    ∀ e ∈ elements, ¬ e.isPair := by
  intro e he hp
  rcases hpairs e he hp with h | h
  · cases hk.symm.trans h
  · cases hk.symm.trans h

/-- What a closer does with the elements of a container and the operand `receivers` that the
container takes: their fragment goes on the operands `rest`. -/
def Closes (N : Names) (c : Pending) (close : Span) (receivers elements rest : List Operand)
    (b b' : Bench ε) : Prop :=
  (∀ r ∈ receivers, ¬ r.isPair) ∧ ∃ M b₁ o, Looked N M { b with operands := ⟨rest⟩ } b₁ ∧
    Closed M c close receivers elements o ∧ b' = { b₁ with operands := ⟨o :: rest⟩ }

theorem Closes.intro {c : Pending} {close : Span} {receivers elements rest : List Operand}
    {M : Names} {b b₁ : Bench ε} {o : Operand} (hr : ∀ r ∈ receivers, ¬ r.isPair)
    (hl : Looked N M { b with operands := ⟨rest⟩ } b₁)
    (hc : Closed M c close receivers elements o) :
    Closes N c close receivers elements rest b { b₁ with operands := b₁.operands.push o } := by
  refine ⟨hr, M, b₁, o, hl, hc, ?_⟩
  rw [hl.operands]
  rfl

section Close

variable {c : Pending} {ps : List Pending} {elements rest : List Operand}
  (hd : Describes N b.tables b.scope)
  (hpairs : ∀ e ∈ elements, e.isPair → c.op.kind = .listLiteral ∨ c.op.kind = .setLiteral)

include hd hpairs

/-- A container that was opened on its own. -/
theorem ends_closeAlone (hops : b.operands = ⟨rest⟩) (hopens : Opens N c.op.kind c.extra)
    (hk : c.op.kind.isContainer) (close : Span) :
    Ends (closeContainer c elements close) b
      (fun _ b' => Closes N c close [] elements rest b b') (fun e _ => Regular e) := by
  have hb : { b with operands := ⟨rest⟩ } = b := by rw [← hops]
  have finish {M : Names} {b₁ : Bench ε} {o : Operand} (hl : Looked N M b b₁)
      (hc : Closed M c close [] elements o) :
      Closes N c close [] elements rest b { b₁ with operands := b₁.operands.push o } :=
    .intro nofun (hb.symm ▸ hl) hc
  unfold closeContainer
  generalize hkind : c.op.kind = kind, hextra : c.extra = extra at hopens
  cases hopens with
  | unary op => simp [hkind, OpKind.isContainer, OpKind.closer?] at hk
  | group =>
    simp only [closeGroup]
    split
    · split
      case isTrue hp => simp [Regular]
      case isFalse hp => exact finish (.refl hd) (.group hkind hextra (by simpa using hp))
    · simp [Regular]
  | listLiteral | setLiteral =>
    simp only
    split
    case h_1 node hnode => exact finish (.refl hd) (.collection hextra (by rw [hkind]; exact hnode))
    case h_2 => simp [Regular]
  | bareCall name lookup =>
    have hargs := not_isPair_of_call hkind hpairs
    have call {M : Names} {b₁ : Bench ε} (ht : Looked N M b b₁)
        (hcall : lookup = .unstated → M.callable name = false) :
        Ends (do
          let ident ← identifier (.method name (elements.map (·.node)).length)
          pushOperand
            (.object (.call ident lookup (elements.map (·.node))) (c.span.merge close))) b₁
          (fun _ b' => Closes N c close [] elements rest b b') (fun e _ => Regular e) := by
      rw [ends_bind]
      refine (ends_identifier ht.describes _).mono ?_ fun _ _ he => he
      rintro ident b₂ ⟨L, ht', hi⟩
      have hcall' (hl : lookup = .unstated) : L.callable name = false := by
        rw [ht'.grows.callable, hcall hl]
      exact finish (ht.trans ht') (.call hextra hargs hcall' (by simpa using hi))
    simp only [closeCall, hextra]
    by_cases hl : lookup = .unstated
    · subst hl
      rw [if_pos rfl, ends_bind]
      refine (ends_namedCall? hd name _).mono ?_ fun _ _ he => he
      rintro (_ | node) b₁ ⟨M, ht, hn, hnone⟩
      · exact call ht fun _ => hnone rfl
      · exact finish ht (.named hextra hargs (hn node rfl))
    · rw [if_neg hl]
      exact call (.refl hd) fun h => absurd h hl
  | annotated name ha =>
    have hargs := not_isPair_of_call hkind hpairs
    simp only [closeCall, hextra]
    exact finish (.refl hd) (.annotated hextra hargs ha)

/-- A container that takes the operand before it. -/
theorem ends_closeAfter {o : Operand} (hops : b.operands = ⟨o :: rest⟩)
    (hf : floorOf b.operators.toList ≤ rest.length) (hfol : Follows N o c.op.kind c.extra)
    (hk : c.op.kind.isContainer) (close : Span) :
    Ends (closeContainer c elements close) b
      (fun _ b' => Closes N c close [o] elements rest b b') (fun e _ => Regular e) := by
  -- Taking the operand before the container makes room for the fragment.
  have hsame : Looked N N { b with operands := ⟨rest⟩ } { b with operands := ⟨rest⟩ } := .refl hd
  unfold closeContainer
  generalize hkind : c.op.kind = kind, hextra : c.extra = extra at hfol
  cases hfol with
  | binary | ternary | colon | sequence | assign | bind | stream =>
    simp [hkind, OpKind.isContainer, OpKind.closer?] at hk
  | lookup safe =>
    simp only [closeLookup]
    split
    case h_1 key =>
      split
      case isTrue => simp [Regular]
      case isFalse hp =>
        rw [ends_bind, ends_popValue hops hf]
        split
        case isTrue => simp [Regular]
        case isFalse hpair =>
          exact .intro (by simpa using hpair) hsame (.lookup hkind hextra (by simpa using hp))
    case h_2 => simp [Regular]
  | methodCall name safe =>
    have hargs := not_isPair_of_call hkind hpairs
    simp only [closeCall, hextra]
    rw [ends_bind, ends_popValue hops hf]
    split
    case isTrue => simp [Regular]
    case isFalse hpair =>
      rw [ends_bind]
      refine (ends_identifier (b := { b with operands := ⟨rest⟩ }) hd _).mono ?_ fun _ _ he => he
      rintro ident b₂ ⟨L, ht, hi⟩
      exact .intro (by simpa using hpair) ht (.method hextra hargs (by simpa using hi))

end Close

/-! ## The innermost container -/

/-- The container on top is ready to be closed: nothing waits above it. -/
structure Ready (N : Names) (b : Bench ε) (w : List Word) : Prop where
  describes : Describes N b.tables b.scope
  contents : ∀ p ps, b.operators.toList = p :: ps → p.op.kind.isContainer ∧
    ∃ elements below u v, b.operands.toList = elements.reverse ++ below ∧
      w = u ++ p.words ++ v ∧ Contents N p ps elements below u v

theorem isContainer_of_dropWhile {l : List Pending} {p : Pending} {ps : List Pending}
    (h : l.dropWhile (!·.op.kind.isContainer) = p :: ps) : p.op.kind.isContainer := by
  have hne : l.dropWhile (!·.op.kind.isContainer) ≠ [] := by simp [h]
  simpa [h] using List.head_dropWhile_not _ hne

/-- There is nothing to apply where the operator on top is a container. -/
theorem ends_reduceToContainer (h : ∀ p ∈ b.operators.toList.head?, p.op.kind.isContainer)
    {Q : Unit → Bench ε → Prop} {E : ParseError → Bench ε → Prop} :
    Ends reduceToContainer b Q E ↔ Q () b := by
  unfold reduceToContainer reduceWhile
  rw [ends_bind, ends_get]
  cases hps : b.operators.toList with
  | nil => rfl
  | cons p ps =>
    have hp : p.op.kind.isContainer := h p (by simp [hps])
    simp only [applyWhile, hp, Bool.not_true, Bool.false_eq_true, if_false, ends_pure]

theorem Stands.ready (h : Stands N .operator b w) :
    Ends reduceToContainer b (fun _ b' => Ready N b' w) (fun e _ => Regular e) := by
  refine (h.reduceWhile _).mono ?_ fun _ _ he => he
  rintro _ b' ⟨hs, hops⟩
  refine ⟨hs.describes, fun p ps hb => ?_⟩
  have hc : p.op.kind.isContainer := by
    rw [hops] at hb
    exact isContainer_of_dropWhile hb
  obtain ⟨elements, below, u, v, heq, hw, -, hcont⟩ := (hb ▸ hs.layout).contents_operator hc
  exact ⟨hc, elements, below, u, v, heq, hw, hcont⟩

/-- The container on top of `b` is closed: the pieces before it take the words `u`, the operand that
it takes the words `v'`, and its elements the words `v`. -/
structure ClosesTop (N : Names) (close : Span) (c : Pending) (ps : List Pending)
    (receivers elements rest : List Operand) (u v' v : List Word) (b b' : Bench ε) : Prop where
  operators : b.operators.toList = c :: ps
  operands : b.operands.toList = elements.reverse ++ (receivers ++ rest)
  base : (receivers ++ rest).length = c.base
  layout : Layout N .operand rest ps u
  derivesReceivers : Derives N receivers v'
  derivesElements : Derives N elements v
  closes : Closes N c close receivers elements rest { b with operators := ⟨ps⟩ } b'

theorem ClosesTop.stands {close : Span} {c : Pending} {ps : List Pending}
    {receivers elements rest : List Operand} {u v' v : List Word} {b b' : Bench ε}
    (h : ClosesTop N close c ps receivers elements rest u v' v b b') :
    ∃ M, N.Grows M ∧ Stands M .operator b' (u ++ v' ++ c.words ++ v) := by
  obtain ⟨hr, M, b₁, o, hl, hc, rfl⟩ := h.closes
  refine ⟨M, hl.grows, hl.describes, ?_⟩
  simpa [hl.operators] using Layout.closed (h.layout.mono hl.grows)
    (h.derivesReceivers.mono hl.grows) hr (h.derivesElements.mono hl.grows) hc

/-- Closing the container on top with its closer, with whatever is known once it is on top. -/
theorem ends_closeTop {I : Bench ε → Prop} {symbol : String} {span : Span}
    (h : Ends reduceToContainer b (fun _ b' => Ready N b' w ∧ I b') (fun e _ => Regular e)) :
    Ends (close symbol span) b
      (fun _ b'' => ∃ b' c ps receivers elements rest u v' v, I b' ∧
        c.op.kind.closer? = some symbol ∧ w = u ++ v' ++ c.words ++ v ∧
        ClosesTop N span c ps receivers elements rest u v' v b' b'')
      (fun e _ => Regular e) := by
  unfold close
  rw [ends_bind]
  refine h.mono ?_ fun _ _ he => he
  rintro _ b' ⟨hr, hI⟩
  rw [ends_bind, ends_get]
  cases hps : b'.operators.toList with
  | nil =>
    have hpop : b'.operators.pop? = none := by simp [Stack.pop?, hps]
    simp [hpop, Regular]
  | cons c below =>
    have hpop : b'.operators.pop? = some (c, ⟨below⟩) := by simp [Stack.pop?, hps]
    obtain ⟨hk, elements, rest, u, v, hops, rfl, hcont⟩ := hr.contents c below hps
    simp only [hpop]
    split
    case isTrue => simp [Regular]
    case isFalse hcloser =>
      rw [ne_eq, Decidable.not_not] at hcloser
      -- Exactly the elements lie above the base of the container.
      have hmany : (b'.operands.popMany? (b'.operands.size - c.base)).getD ([], b'.operands) =
          (elements, ⟨rest⟩) := by
        have hcount : b'.operands.size - c.base = elements.length := by
          simp only [Stack.size, hops, List.length_append, List.length_reverse, ← hcont.base]
          omega
        rw [hcount]
        simp [Stack.popMany?, Stack.size, hops]
      -- Only a variadic container has counted commas, and a trailing one is fine there.
      have htrailing : ¬ (c.commas ≠ 0 ∧ elements.length = c.commas ∧ !c.op.kind.isVariadic) := by
        rintro ⟨h0, -, hv⟩
        simp [hcont.variadic h0] at hv
      rw [hmany, ends_bind, ends_set, if_neg htrailing]
      cases hcont.opened with
      | alone hl ho =>
        refine (ends_closeAlone (b := { b' with operators := ⟨below⟩, operands := ⟨rest⟩ })
          hr.describes hcont.pairs rfl ho hk span).mono ?_ fun _ _ he => he
        intro _ b'' hcl
        exact ⟨b', c, below, [], elements, rest, u, [], v, hI, hcloser, by simp,
          ⟨hps, hops, hcont.base, hl, .nil, hcont.derives, hcl⟩⟩
      | @after o rest u hl hfol =>
        have hf : floorOf below ≤ rest.length := by simpa using hl.floor_le
        obtain ⟨_, _, u', v', heq, rfl, hl', hd', -⟩ := hl.top_value
        cases heq
        refine (ends_closeAfter (b := { b' with operators := ⟨below⟩, operands := ⟨o :: rest⟩ })
          hr.describes hcont.pairs rfl hf hfol hk span).mono ?_ fun _ _ he => he
        intro _ b'' hcl
        exact ⟨b', c, below, [o], elements, rest, u', v', v, hI, hcloser, by simp,
          ⟨hps, hops, hcont.base, hl', hd', hcont.derives, hcl⟩⟩

theorem ends_close {symbol : String} {span : Span}
    (h : Ends reduceToContainer b (fun _ b' => Ready N b' w) (fun e _ => Regular e)) :
    Ends (close symbol span) b (fun _ b' => ∃ M, N.Grows M ∧ Stands M .operator b' w)
      (fun e _ => Regular e) := by
  have h' : Ends reduceToContainer b (fun _ b' => Ready N b' w ∧ True) (fun e _ => Regular e) :=
    h.mono (fun _ _ hr => ⟨hr, trivial⟩) fun _ _ he => he
  refine (ends_closeTop h').mono ?_ fun _ _ he => he
  rintro _ b' ⟨b₁, c, ps, receivers, elements, rest, u, v', v, -, -, rfl, hcl⟩
  exact hcl.stands

/-! ## The two tokens -/

theorem Stands.comma (h : Stands N .operator b w) (span : Span) :
    Ends (comma span) b (fun _ b' => Stands N .operand b' w) (fun e _ => Regular e) := by
  unfold Parse.comma
  rw [ends_bind]
  refine (h.reduceWhile _).mono ?_ fun _ _ he => he
  rintro _ b' ⟨hs, hops⟩
  rw [ends_bind, ends_get]
  cases hps : b'.operators.toList with
  | nil =>
    have hpeek : b'.operators.peek? = none := by simp [Stack.peek?, hps]
    simp [hpeek, Regular]
  | cons c below =>
    have hpeek : b'.operators.peek? = some c := by simp [Stack.peek?, hps]
    have hc : c.op.kind.isContainer := by
      rw [hops] at hps
      exact isContainer_of_dropWhile hps
    have hl : Layout N .operator b'.operands.toList (c :: below) w := hps ▸ hs.layout
    simp only [hpeek]
    split
    case isTrue => simp [Regular]
    case isFalse hv =>
      obtain ⟨elements, rest, u, v, hel, -, hlen, hcont⟩ := hl.contents_operator hc
      -- One element for each comma before this one, and the one that has just ended.
      have hcount : b'.operands.size - c.base = c.commas + 1 := by
        simp only [Stack.size, hel, List.length_append, List.length_reverse, ← hcont.base]
        omega
      rw [if_neg (by simp [hcount]), ends_set]
      refine ⟨hs.describes, ?_⟩
      simpa [hps] using Layout.comma hl (by simpa using hv)

/-- A comma keeps what closing would change. -/
theorem Stands.comma_keeps {α : Type} {f : List Pending → α}
    (hf : ∀ p ps, p.op.kind.isContainer = false → isOpenTernary p = false → f (p :: ps) = f ps)
    (hcommas : ∀ p ps count, f ({ p with commas := count } :: ps) = f (p :: ps))
    (h : Stands N .operator b w) (span : Span) :
    Ends (Parse.comma span) b (fun _ b' => f b'.operators.toList = f b.operators.toList)
      (fun _ _ => True) := by
  unfold Parse.comma Parse.reduceToContainer
  rw [ends_bind]
  refine (h.reduceWhile_keeps hf _).mono ?_ fun _ _ _ => trivial
  intro _ b' hb
  rw [ends_bind, ends_get]
  cases hps : b'.operators.toList with
  | nil =>
    have hpeek : b'.operators.peek? = none := by simp [Stack.peek?, hps]
    simp [hpeek]
  | cons c below =>
    have hpeek : b'.operators.peek? = some c := by simp [Stack.peek?, hps]
    simp only [hpeek]
    split
    case isTrue => trivial
    case isFalse =>
      split
      case isTrue => trivial
      case isFalse =>
        rw [ends_set]
        simpa only [Stack.toList_modifyAt, hps, List.modify_zero_cons, hcommas] using hb

theorem Stands.close (h : Stands N .operator b w) (symbol : String) (span : Span) :
    Ends (close symbol span) b (fun _ b' => ∃ M, N.Grows M ∧ Stands M .operator b' w)
      (fun e _ => Regular e) :=
  ends_close h.ready

/-- A closer in operand position closes a container that is on top already, or fails. -/
theorem Stands.ends_closeWithoutOperand (h : Stands N .operand b w) {symbol : String} {span : Span}
    {Q : Unit → Bench ε → Prop}
    (hclose : Ends reduceToContainer b (fun _ b' => Ready N b' w ∧ b' = b) (fun e _ => Regular e) →
      Ends (Parse.close symbol span) b Q (fun e _ => Regular e)) :
    Ends (closeWithoutOperand symbol span) b Q (fun e _ => Regular e) := by
  unfold Parse.closeWithoutOperand
  rw [ends_bind, ends_get]
  cases hps : b.operators.toList with
  | nil =>
    have hpeek : b.operators.peek? = none := by simp [Stack.peek?, hps]
    simp only [hpeek]
    refine hclose ((ends_reduceToContainer (by simp [hps])).mpr ?_)
    exact ⟨⟨h.describes, by simp [hps]⟩, rfl⟩
  | cons c below =>
    have hpeek : b.operators.peek? = some c := by simp [Stack.peek?, hps]
    simp only [hpeek]
    split
    case isTrue => simp [Regular]
    case isFalse hc =>
      have hk : c.op.kind.isContainer := by
        cases hk : c.op.kind.isContainer with
        | true => rfl
        | false => simp [hk] at hc
      refine hclose ((ends_reduceToContainer (by simpa [hps] using hk)).mpr ?_)
      refine ⟨⟨h.describes, fun p ps hp => ?_⟩, rfl⟩
      obtain ⟨rfl, rfl⟩ := List.cons.inj (hps.symm.trans hp)
      obtain ⟨elements, rest, u, v, heq, hw, -, hcont⟩ := (hps ▸ h.layout).contents hk
      exact ⟨hk, elements, rest, u, v, heq, hw, hcont⟩

theorem Stands.closeWithoutOperand (h : Stands N .operand b w) (symbol : String) (span : Span) :
    Ends (closeWithoutOperand symbol span) b
      (fun _ b' => ∃ M, N.Grows M ∧ Stands M .operator b' w) (fun e _ => Regular e) :=
  h.ends_closeWithoutOperand fun hready =>
    ends_close (hready.mono (fun _ _ hr => hr.1) fun _ _ he => he)

end TagExpr.Parse
