import TagExpr.Proofs.Parse.Run
import TagExpr.Proofs.Parse.Whole
import TagExpr.Proofs.Scoping.Operands
import TagExpr.Proofs.Scoping.Regions

/-!
# Local slots are lexically scoped

A run that succeeds leaves one fragment, and a walk over it agrees with the cues of the text from
where the run began. The induction is on the fuel, since an interpolated source is parsed with what
is left of it.

A walk over the tree of a parsed expression agrees with the cues of its text, whatever the order in
which the operators were applied. From the rules of scoping it follows where each slot is declared
and where it can be mentioned: the parameters of a definition have the first slots, and every other
slot belongs to one clause or to the first assignment to a name, and to the scope around it.
-/

namespace TagExpr.Parse

open Scoping

variable {ε : Type} {N : Names} {b : Bench ε} {start : Reading ε} {cs : List Cue} {mode : LexMode}

/-- At the end of the text nothing waits, and one fragment stands for all visits. -/
theorem Agrees.finish (h : Agrees N .operator start b cs) (span : Span) :
    Ends (finish span) b (fun o b' => Passes start o.node.visits cs b') (fun _ _ => True) := by
  unfold Parse.finish
  rw [ends_bind]
  refine (h.reduceWhile _).mono ?_ fun _ _ _ => trivial
  intro _ b₁ hend
  obtain ⟨h₁, hops⟩ := hend
  have hnil : b₁.operators.toList = [] := by simp [hops]
  obtain ⟨o, heq, hp, hd⟩ := h₁.stands.only hnil
  rw [ends_bind, ends_get]
  simp only [heq, hp, Bool.false_eq_true, if_false]
  rw [ends_pure]
  obtain ⟨r, hr⟩ := h₁.scanned (by rw [hnil]; exact List.forall_mem_nil _)
  have hvisits : trace b₁.operands.toList b₁.operators.toList = o.node.visits := by
    rw [hnil, heq, trace, List.reverse_singleton, visitsOf_one, hd.visits_eq hp]
  exact ⟨r, hvisits ▸ hr.reads, hr.mirrors, (hnil ▸ hr.waits).of_nil⟩

/-! ## Sources of string literals -/

/-- An interpolated source is parsed on empty stacks, whatever is visible. -/
theorem Calls.agrees {nested : List Char → Nat → Parse ε Operand} {base at_ : Nat}
    {parts : List Literal.Segment} {source : List Char} {b' : Bench ε}
    (h : Calls nested base parts b source at_ b') (hd : Describes N b'.tables b'.scope)
    (hm : Mirrors start b'.tables b'.scope) : Agrees N .operand start b' [] := by
  refine ⟨h.stands hd, fun _ => ⟨start, ?_, hm, ?_⟩⟩
  · obtain ⟨-, -, -, -, b₁, -, -, -, rfl⟩ := h
    exact .nil start
  · obtain ⟨-, -, -, -, b₁, -, -, -, rfl⟩ := h
    exact .start

/-- If runs with less fuel read their texts as the rules say, so does the parse of an interpolated
source, from every reading that its bench may have. -/
theorem Calls.sourced {fuel base at_ : Nat} {parts : List Literal.Segment} {source : List Char}
    {b' : Bench ε} (h : Calls (nestedParse fuel) base parts b source at_ b')
    (hd : Describes N b'.tables b'.scope) (hfuel : source.length < fuel)
    (hrounds : ∀ r : Reading ε, Agrees N .operand r b' [] →
      Ends (nestedParse fuel source at_) b'
        (fun o b'' =>
          Passes r o.node.visits (cues N.extensions fuel .operand (Cursor.start source)) b'')
        (fun _ _ => True)) :
    Sourced N (cues N.extensions fuel .operand (Cursor.start source)) b'
      (nestedParse fuel source at_) := by
  have hyields : Ends (nestedParse fuel source at_) b'
      (Yields N (words N.extensions fuel .operand (Cursor.start source)))
      (fun e _ => (Round.mk fuel .operand at_ (Cursor.start source) b').Fails e) :=
    ends_rounds at_ (h.stands hd) hfuel
  have hpasses := Ends.all fun r (hm : Mirrors r b'.tables b'.scope) =>
    hrounds r (h.agrees hd hm)
  refine (hyields.and hpasses).mono ?_ fun _ _ _ => trivial
  intro o b'' hend
  obtain ⟨hy, hpass⟩ := hend
  rw [words_cues]
  exact ⟨hy, hpass⟩

/-! ## Tokens -/

variable {nested : List Char → Nat → Parse ε Operand}

variable (nested) in
/-- A token in operand position leads to stacks that agree with its cues. -/
theorem Agrees.ends_operand (h : Agrees N .operand start b cs) (nestedCues : List Char → List Cue)
    {kind : TokenKind} (span : Span) (hk : kind ≠ .finish)
    (hnested : ∀ raw parts, kind = .str raw true → b.scope.extensions.interpolation →
      Literal.split raw = .ok parts → ∀ source at_ b',
      Calls nested (span.start + 1) parts b source at_ b' →
      ∀ M, N.Grows M → Describes M b'.tables b'.scope →
        Sourced M (nestedCues source) b' (nested source at_)) :
    Ends (Parse.operand nested kind span) b
      (fun mode b' => mode = kind.modeAfter ∧ ∃ M, N.Grows M ∧
        Agrees M mode start b' (cs ++ Cue.ofOperand N.extensions nestedCues kind))
      (fun _ _ => True) := by
  have hstands := h.stands.operand nested (fun source => Cue.words (nestedCues source)) span
    (E := fun _ => True) (fun _ _ => trivial) hk fun raw parts hstr hx hsplit source at_ b' hcall
      M hg hd => (hnested raw parts hstr hx hsplit source at_ b' hcall M hg hd).mono
        (fun _ _ hy => hy.1) fun _ _ he => he
  have hscanned := h.operand nested nestedCues kind span hnested
  refine (hstands.and hscanned).mono ?_ fun _ _ _ => trivial
  intro mode b' hend
  obtain ⟨⟨hmode, M, hg, hs⟩, hscans⟩ := hend
  refine ⟨hmode, M, hg, ?_, hscans⟩
  rw [Cue.words_append, Cue.words_ofOperand]
  exact hs

/-- A comma leads to stacks that agree with the same cues. -/
theorem Agrees.ends_comma (h : Agrees N .operator start b cs) (span : Span) :
    Ends (Parse.comma span) b (fun _ b' => Agrees N .operand start b' cs) (fun _ _ => True) := by
  refine ((h.comma span).and (h.stands.comma span)).mono ?_ fun _ _ _ => trivial
  intro _ b' hend
  obtain ⟨hscanned, hstands⟩ := hend
  exact ⟨hstands, hscanned⟩

/-- An operator symbol leads to stacks that agree with its cues. -/
theorem Agrees.ends_operator (h : Agrees N .operator start b cs) (symbol : String) (span : Span)
    (base : Nat) (at_ : Cursor) :
    Ends (Parse.operator symbol span base at_) b
      (fun reached b' => reached = (operatorReach symbol at_).2 ∧ ∃ M, N.Grows M ∧
        Agrees M reached.1 start b' (cs ++ Cue.ofOperator symbol at_))
      (fun _ _ => True) := by
  refine ((h.stands.operator symbol span base at_).and (h.operator symbol span base at_)).mono ?_
    fun _ _ _ => trivial
  intro reached b' hend
  obtain ⟨⟨heq, M, hg, hs⟩, hscans⟩ := hend
  refine ⟨heq, M, hg, ?_, hscans⟩
  rw [Cue.words_append, Cue.words_ofOperator]
  exact hs

/-! ## The loop -/

/-- **A run that succeeds reads its text as the rules of scoping say.** -/
theorem ends_rounds_passes {fuel : Nat} (base : Nat) {at_ : Cursor}
    (h : Agrees N mode start b cs) (hfuel : at_.rest.length < fuel) :
    Ends (rounds fuel mode base at_) b
      (fun o b' => Passes start o.node.visits (cs ++ cues N.extensions fuel mode at_) b')
      (fun _ _ => True) := by
  induction fuel generalizing N b cs mode base at_ start with
  | zero => omega
  | succ fuel ih =>
    -- What the next round passes through, this one passes through too, if the cues fit.
    have next {mode' : LexMode} {base' : Nat} {after : Cursor} {b' : Bench ε} {M : Names}
        (ds : List Cue) (hg : N.Grows M) (hs : Agrees M mode' start b' (cs ++ ds))
        (hlen : after.rest.length < fuel)
        (hcues : cues N.extensions (fuel + 1) mode at_ = ds ++ cues N.extensions fuel mode' after) :
        Ends (rounds fuel mode' base' after) b'
          (fun o b'' =>
            Passes start o.node.visits (cs ++ cues N.extensions (fuel + 1) mode at_) b'')
          (fun _ _ => True) := by
      refine (ih base' hs hlen).mono ?_ fun _ _ he => he
      intro o b'' hpass
      rwa [hcues, ← List.append_assoc, ← hg.extensions]
    unfold rounds
    rw [ends_bind, ends_readToken]
    cases hnext : Token.next mode at_ with
    | error e => trivial
    | ok r =>
      obtain ⟨⟨kind, span⟩, after⟩ := r
      cases mode with
      | member => cases h.stands.layout
      | operand =>
        simp only
        rw [ends_bind]
        by_cases hk : kind = .finish
        · subst hk
          exact ends_operand_finish (E := fun _ => True) (fun _ _ => trivial) trivial
        · have hlen := Token.length_next hnext hk
          refine (h.ends_operand (nestedParse fuel)
            (fun source => cues N.extensions fuel .operand (Cursor.start source))
            (span.shift base) hk ?_).mono ?_ fun _ _ he => he
          · intro raw parts hstr _ hsplit source at' b' hcall M hg hd
            subst hstr
            have hsource : source.length < fuel := by
              have := hcall.length_lt hsplit
              have := (Token.infix_of_str hnext).length_le
              omega
            rw [← hg.extensions]
            exact hcall.sourced hd hsource fun r hagrees => ih at' hagrees hsource
          · intro mode' b₁ hend
            obtain ⟨hmode, M, hg, hs⟩ := hend
            subst hmode
            exact next _ hg hs (by omega) (by simp only [cues, hnext])
      | operator =>
        cases kind with
        | finish =>
          refine (h.finish _).mono ?_ fun _ _ he => he
          intro o b' hpass
          simpa [cues, hnext] using hpass
        | comma =>
          have hlen := Token.length_next hnext (by simp)
          simp only
          rw [ends_bind]
          refine (h.ends_comma (span.shift base)).mono ?_ fun _ _ he => he
          intro _ b₁ hs
          rw [← List.append_nil cs] at hs
          exact next [] (.refl N) hs (by omega) (by simp [cues, hnext])
        | operator symbol =>
          have hlen := Token.length_next hnext (by simp)
          have hreach := length_operatorReach symbol after
          simp only
          rw [ends_bind]
          refine (h.ends_operator symbol (span.shift base) base after).mono ?_ fun _ _ he => he
          intro reached b₁ hend
          obtain ⟨heq, M, hg, hs⟩ := hend
          subst heq
          exact next _ hg hs (by omega) (by simp only [cues, hnext])
        | _ => trivial

end TagExpr.Parse

namespace TagExpr

open Parse Scoping

variable {ε : Type} {text : String} {offset : Nat} {scope scope' : TemplateScope ε} {p : Parsed ε}

/-! ## Where a text begins -/

/-- The scope in which the expression of a text is parsed: the name of a definition is reserved. -/
def bodyScope (text : String) (scope : TemplateScope ε) : TemplateScope ε :=
  match definitionOf? scope.extensions text with
  | some definition => scope.beginDefinition definition.name
  | none => scope

/-- What is known where the expression of a text begins: the parameters have the first slots, in
order. -/
def Scoping.Reading.ofText (text : String) (scope : TemplateScope ε) : Reading ε where
  current := (paramsOf scope.extensions text).zipIdx.reverse
  around := []
  next := (paramsOf scope.extensions text).length
  file := bodyScope text scope

theorem Scoping.Reading.bounded_ofText (text : String) (scope : TemplateScope ε) :
    (Reading.ofText text scope).Bounded := by
  intro entry he
  have hmem : entry ∈ (paramsOf scope.extensions text).zipIdx := by
    simpa [Reading.visible, Reading.ofText] using he
  obtain ⟨-, hlt, -⟩ := List.mem_zipIdx hmem
  simpa [Reading.ofText] using hlt

namespace Parse

theorem Mirrors.declareParams {r : Reading ε} {tables tables' : Tables ε}
    {params : List (String × Span)} (h : Mirrors r tables scope)
    (hp : Parsed.declareParams tables params = .ok tables') :
    Mirrors { r with
      current := ((params.map (·.1)).zipIdx r.next).reverse ++ r.current
      next := r.next + params.length } tables' scope := by
  induction params generalizing r tables with
  | nil =>
    cases hp
    exact h
  | cons param params ih =>
    obtain ⟨name, span⟩ := param
    unfold Parsed.declareParams at hp
    split at hp
    case isTrue => cases hp
    case isFalse =>
      have hrest := ih (h.declare name) hp
      simpa [Reading.declare, Nat.add_assoc, Nat.add_comm 1] using hrest

theorem firstRound?_mirrors {r : Round ε} (h : firstRound? text offset scope = some r) :
    Mirrors (.ofText text scope) r.bench.tables r.bench.scope := by
  have hfresh (file : TemplateScope ε) : Mirrors ⟨[], [], 0, file⟩ {} file := ⟨rfl, rfl, rfl⟩
  unfold firstRound? at h
  unfold Reading.ofText bodyScope paramsOf
  split at h
  case h_1 hd =>
    cases h
    rw [hd]
    exact hfresh scope
  case h_2 definition hd =>
    rw [hd]
    split at h
    case isTrue => cases h
    case isFalse =>
      split at h
      case h_1 => cases h
      case h_2 tables hp =>
        cases h
        have hm := (hfresh (scope.beginDefinition definition.name)).declareParams hp
        refine ⟨?_, ?_, rfl⟩
        · show tables.locals = _
          simpa using hm.locals
        · show tables.localCount = _
          simpa using hm.localCount

/-- The run of a text reads it from its beginning. -/
theorem parse_reads (h : parse text offset scope = (.ok p, scope')) :
    ∃ last, Reads (.ofText text scope) p.node.visits (cuesOf scope.extensions text) last ∧
      last.next = p.localCount ∧ last.around = [] ∧ last.file = scope' := by
  obtain ⟨r, o, b, hfirst, hrun, rfl, hp⟩ := parse_ok h
  obtain ⟨N, hs, hext, -⟩ := firstRound?_stands hfirst
  have hstart := firstRound?_start hfirst
  have hmode : r.mode = .operand := by rw [hstart]; rfl
  have hfuel : r.fuel = r.at_.rest.length + 1 := by rw [hstart]; rfl
  have hat : r.at_ = bodyOf scope.extensions text := by rw [hstart]; rfl
  have hagrees : Agrees N r.mode (.ofText text scope) r.bench [] := by
    rw [hmode]
    refine ⟨hs, fun _ => ⟨.ofText text scope, ?_, firstRound?_mirrors hfirst, ?_⟩⟩
    · rw [hstart]
      exact .nil _
    · rw [hstart]
      exact .start
  have hends := ends_rounds_passes r.base hagrees (firstRound?_laidOut hfirst).2
  obtain ⟨last, hreads, hm, ha⟩ := hends.ok hrun
  rw [List.nil_append, hext, hmode, hfuel, hat, ← hp.node] at hreads
  exact ⟨last, hreads, by rw [hp.localCount, hm.localCount], ha, hm.scope.symm⟩

end Parse

/-! ## Where slots are declared and mentioned -/

/-- The local slots of the expression `p`, which was parsed from a text, are lexically scoped. -/
structure LexicallyScoped (text : String) (scope scope' : TemplateScope ε) (p : Parsed ε) :
    Prop where
  /-- A walk over the tree agrees with the cues of the text by the rules of `Scoping.Step`, which
  say what a bare name resolves to and what declares a slot. -/
  reads : ∃ last, Reads (.ofText text scope) p.node.visits (cuesOf scope.extensions text) last ∧
    last.next = p.localCount ∧ last.around = [] ∧ last.file = scope'
  /-- A bare name with a visible local is met as the innermost one; where `:=` follows it, as the
  binding that is declared in its place. -/
  names : ∀ (ds es : List Cue) (name : String),
    cuesOf scope.extensions text = ds ++ .word (.bare name) :: es →
    ∃ before v after r, p.node.visits = before ++ v :: after ∧
      Reads (.ofText text scope) before ds r ∧
      ∀ slot, r.visible.lookup name = some slot →
        v = .reads (.slot slot) ∨ v = .assigns (.slot slot) ∨
          es.head? = some .bind ∧ ∃ template index, v = .assigns (.binding template index)
  /-- The parameters have the first slots, and nothing in the tree declares these. -/
  params : p.params = (paramsOf scope.extensions text).length ∧
    ∀ slot, slot < p.params → .clause slot ∉ p.node.visits
  /-- Every other slot is declared at one place, before which it is not mentioned, and mentioned
  only in the scope of that place. -/
  declared : ∀ slot, p.params ≤ slot → slot < p.localCount →
    DeclaresOnce (.ofText text scope) p.node.visits (cuesOf scope.extensions text) slot
  /-- There are no other slots. -/
  mentioned : ∀ v ∈ p.node.visits, ∀ slot ∈ v.slot?, slot < p.localCount
  /-- The slot of a clause is mentioned in the body of its streaming operator only. -/
  clauses : ∀ (before after : List Visit) (op : StreamOp) (source body : Node) (slot : Nat),
    p.node.visits = before ++ (Node.stream op source (some slot) body).visits ++ after →
    ∀ v ∈ before ++ source.visits ++ after, v.slot? ≠ some slot
  /-- A slot that is mentioned first in the body of a streaming operator or in a part of an
  interpolated text is mentioned nowhere else. -/
  scopes : ∀ (before inner after : List Visit) (slot : Nat),
    p.node.visits = before ++ Visit.enclosed inner ++ after → Visit.Nested inner →
    p.params ≤ slot → (∀ v ∈ before, v.slot? ≠ some slot) → (∃ v ∈ inner, v.slot? = some slot) →
    ∀ v ∈ after, v.slot? ≠ some slot

/-- **The local slots of every parsed expression are lexically scoped.** -/
theorem locals_lexically_scoped {ε : Type} {text : String} {offset : Nat}
    {scope scope' : TemplateScope ε} {p : Parsed ε}
    (h : parse text offset scope = (.ok p, scope')) : LexicallyScoped text scope scope' p := by
  obtain ⟨last, hreads, hnext, ha, hfile⟩ := parse_reads h
  have hb := Reading.bounded_ofText text scope
  have hparams : p.params = (paramsOf scope.extensions text).length := by
    obtain ⟨r, o, b, hfirst, -, -, hp⟩ := parse_ok h
    rw [hp.params, (firstRound?_mirrors hfirst).localCount, Reading.ofText]
  have hfirst : (Reading.ofText text scope).next = p.params := hparams.symm
  refine ⟨⟨last, hreads, hnext, ha, hfile⟩, ?_, ⟨hparams, ?_⟩, ?_, ?_, ?_, ?_⟩
  · intro ds es name hcues
    rw [hcues] at hreads
    obtain ⟨before, v, after, r, hvisits, hbefore, hv⟩ := hreads.name_at
    exact ⟨before, v, after, r, hvisits, hbefore, hv⟩
  · intro slot hslot
    exact hreads.clause_not_mem (by rwa [hfirst])
  · intro slot lower upper
    exact hreads.declaresOnce hb (by rwa [hfirst]) (by rwa [hnext])
  · rw [← hnext]
    exact hreads.slot_lt hb
  · intro before after op source body slot hvisits
    have hclause : p.node.visits =
        (before ++ source.visits ++ [.enter]) ++
          .clause slot :: (body.visits ++ .leave :: after) := by
      rw [hvisits, Node.visits]
      simp [Visit.enclosed, Visit.ofClause]
    rw [hclause] at hreads
    obtain ⟨hearlier, hlater⟩ := hreads.clause_region hb
    rw [(Node.nested_visits body).outside] at hlater
    intro v hv
    rcases List.mem_append.1 hv with hv | hv
    · exact hearlier v (List.mem_append_left _ hv)
    · exact hlater v hv
  · intro before inner after slot hvisits hn lower hbefore hinner
    rw [hvisits, List.append_assoc] at hreads
    exact hreads.enclosed_region hb hn (by rwa [hfirst]) hbefore hinner

theorem locals_lexically_scoped_of_nested :
    ∃ p scope', parse "f(a, b) -> t = a; [b] #> i -> (u = i; \"$\x7bv = u; v\x7d $t\")" 0
        (TemplateScope.fresh : TemplateScope Nat) = (.ok p, scope') ∧
      p.params = 2 ∧ p.localCount = 6 ∧
      LexicallyScoped "f(a, b) -> t = a; [b] #> i -> (u = i; \"$\x7bv = u; v\x7d $t\")"
        TemplateScope.fresh scope' p := by
  have hslots : (parse "f(a, b) -> t = a; [b] #> i -> (u = i; \"$\x7bv = u; v\x7d $t\")" 0
      (TemplateScope.fresh : TemplateScope Nat)).1.toOption.map
        (fun p => (p.params, p.localCount)) = some (2, 6) := by decide +kernel
  obtain ⟨p, scope', h⟩ := Parse.parse_of_isOk
    "f(a, b) -> t = a; [b] #> i -> (u = i; \"$\x7bv = u; v\x7d $t\")" 0
    (TemplateScope.fresh : TemplateScope Nat) (by decide +kernel)
  rw [h] at hslots
  obtain ⟨hparams, hcount⟩ := Prod.mk.inj (Option.some.inj hslots)
  exact ⟨p, scope', h, hparams, hcount, locals_lexically_scoped h⟩

end TagExpr
