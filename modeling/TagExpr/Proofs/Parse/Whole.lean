import TagExpr.Proofs.Parse.Run

/-!
# Whole texts

The parse of a text is one run of the parser, from the first round on the scope and on tables that
hold the parameters of a definition. What the positions in the parsed tree stand for is listed by
the tables of the expression and by the scope as it is left behind.
-/

namespace TagExpr

open Parse

variable {ε : Type} {text : String} {offset : Nat} {scope scope' : TemplateScope ε}

namespace Parse

/-- The round in which a run begins. -/
def Round.start (scope : TemplateScope ε) (tables : Tables ε) (offset : Nat) (at_ : Cursor) :
    Round ε :=
  ⟨at_.rest.length + 1, .operand, offset, at_, { scope, tables }⟩

/-- How the run of a round ends. -/
def Round.run (r : Round ε) : EStateM.Result ParseError (Bench ε) Operand :=
  rounds r.fuel r.mode r.base r.at_ r.bench

/-- The first round of the parse of a text. There is none where the signature of a definition is
refused. -/
def firstRound? (text : String) (offset : Nat) (scope : TemplateScope ε) : Option (Round ε) :=
  match definitionOf? scope.extensions text with
  | none => some (.start scope {} offset (Cursor.start text.toList))
  | some definition =>
    if scope.isNamed definition.name then none
    else
      match Parsed.declareParams {} definition.params with
      | .error _ => none
      | .ok tables =>
        some (.start (scope.beginDefinition definition.name)
          { tables with defining := some definition.name } offset definition.body)

/-! ## Parameters -/

theorem Describes.fresh (scope : TemplateScope ε) :
    Describes ⟨[], [], [], scope.bindingNames, none, canCall scope none, scope.extensions⟩ {}
      scope where
  slots := rfl
  locals := by simp
  identifiers := rfl
  nodup := by simp
  expressions := rfl
  defined := by simp
  bindings := rfl
  defining := rfl
  callable := rfl
  extensions := rfl

/-- The parameters of a definition take the first slots. -/
theorem Describes.declareParams {N : Names} {tables tables' : Tables ε}
    {params : List (String × Span)} (h : Describes N tables scope)
    (hp : Parsed.declareParams tables params = .ok tables') :
    Describes { N with slots := N.slots ++ params.map (·.1) } tables' scope ∧
      tables'.expressions = tables.expressions := by
  induction params generalizing N tables with
  | nil =>
    cases hp
    simpa using h
  | cons param params ih =>
    obtain ⟨name, span⟩ := param
    unfold Parsed.declareParams at hp
    split at hp
    case isTrue => cases hp
    case isFalse =>
      have hnext : Describes { N with slots := N.slots ++ [name] } (tables.declareLocal name).2
          scope := by
        refine { h with slots := by simp [Tables.declareLocal, h.slots], locals := ?_ }
        intro p hmem
        rcases List.mem_cons.mp hmem with rfl | hmem
        · simp [← h.slots]
        · exact getElem?_of_prefix (List.prefix_append _ _) (h.locals p hmem)
      obtain ⟨hd, he⟩ := ih hnext hp
      exact ⟨by simpa using hd, he⟩

/-! ## The first round -/

theorem firstRound?_start {r : Round ε} (h : firstRound? text offset scope = some r) :
    r = .start r.bench.scope r.bench.tables offset (bodyOf scope.extensions text) := by
  unfold firstRound? at h
  unfold bodyOf
  split at h
  case h_1 hd =>
    cases h
    rw [hd]
    rfl
  case h_2 definition hd =>
    rw [hd]
    split at h
    case isTrue => cases h
    case isFalse =>
      split at h
      case h_1 => cases h
      case h_2 =>
        cases h
        rfl

theorem firstRound?_stands {r : Round ε} (h : firstRound? text offset scope = some r) :
    ∃ N, Stands N .operand r.bench [] ∧ N.extensions = scope.extensions ∧
      N.slots = paramsOf scope.extensions text := by
  unfold firstRound? at h
  unfold paramsOf
  split at h
  case h_1 hd =>
    cases h
    exact ⟨_, ⟨.fresh scope, .start⟩, rfl, by rw [hd]⟩
  case h_2 definition hd =>
    rw [hd]
    split at h
    case isTrue => cases h
    case isFalse =>
      split at h
      case h_1 => cases h
      case h_2 tables hp =>
        cases h
        obtain ⟨hd', he⟩ := (Describes.fresh scope).declareParams hp
        refine ⟨{ slots := definition.params.map (·.1), identifiers := [], expressions := [],
                  bindings := scope.bindingNames, defining := some definition.name,
                  extensions := scope.extensions,
                  callable := canCall (scope.beginDefinition definition.name)
                    (some definition.name) }, ⟨?_, .start⟩, rfl, rfl⟩
        refine { hd' with defined := fun p hp => ?_, defining := rfl, callable := rfl }
        have hmem : p ∈ tables.expressions := hp
        simp [he] at hmem

theorem firstRound?_laidOut {r : Round ε} (h : firstRound? text offset scope = some r) :
    r.LaidOut := by
  obtain ⟨N, hs, -, -⟩ := firstRound?_stands h
  rw [firstRound?_start h] at hs ⊢
  exact ⟨⟨N, [], hs⟩, Nat.lt_succ_self _⟩

/-! ## From the run to the parsed expression -/

theorem runFrom_eq (scope : TemplateScope ε) (tables : Tables ε) (offset : Nat) (at_ : Cursor) :
    Parsed.runFrom scope tables offset at_ =
      match (Round.start scope tables offset at_).run with
      | .ok operand b => (.ok (operand, b.tables), b.scope)
      | .error e b => (.error e, b.scope) := rfl

/-- The parsed expression is put together from the last fragment of a run and the bench that the run
leaves behind. -/
structure Gathers (r : Round ε) (o : Operand) (b : Bench ε) (p : Parsed ε) : Prop where
  name : p.name = r.bench.tables.defining
  params : p.params = r.bench.tables.localCount
  node : p.node = o.node
  type : p.type = o.type
  identifiers : p.identifiers = b.tables.identifiers
  expressions : p.expressions = b.tables.expressions.map (·.2)
  localCount : p.localCount = b.tables.localCount

/-- The parse of a text ends as the run from its first round does. -/
theorem parse_run (text : String) (offset : Nat) (scope : TemplateScope ε) :
    match firstRound? text offset scope with
    | none => ∃ e, (parse text offset scope).1 = .error e ∧ Regular e
    | some r =>
      match r.run with
      | .ok o b => ∃ p, parse text offset scope = (.ok p, b.scope) ∧ Gathers r o b p
      | .error e _ => (parse text offset scope).1 = .error e := by
  unfold parse firstRound?
  cases hdef : definitionOf? scope.extensions text with
  | none =>
    rw [definitionOf?] at hdef
    simp only [hdef, runFrom_eq]
    cases (Round.start scope {} offset (Cursor.start text.toList)).run with
    | ok o b => exact ⟨_, rfl, rfl, rfl, rfl, rfl, rfl, rfl, rfl⟩
    | error e b => rfl
  | some definition =>
    rw [definitionOf?] at hdef
    simp only [hdef, Parsed.ofDefinition]
    by_cases hnamed : scope.isNamed definition.name
    · simp only [hnamed, if_true]
      exact ⟨_, rfl, by simp [Regular]⟩
    · simp only [hnamed, Bool.false_eq_true, if_false]
      cases hp : Parsed.declareParams (ε := ε) {} definition.params with
      | error e => exact ⟨_, rfl, by simp [Regular]⟩
      | ok tables =>
        have hcount : tables.localCount = definition.params.length := by
          have := ((Describes.fresh scope).declareParams hp).1.slots
          simpa using this.symm
        simp only [runFrom_eq]
        cases (Round.start (scope.beginDefinition definition.name)
            { tables with defining := some definition.name } offset definition.body).run with
        | ok o b => exact ⟨_, rfl, rfl, hcount.symm, rfl, rfl, rfl, rfl, rfl⟩
        | error e b => rfl

theorem parse_ok {p : Parsed ε} (h : parse text offset scope = (.ok p, scope')) :
    ∃ r o b, firstRound? text offset scope = some r ∧ r.run = .ok o b ∧ scope' = b.scope ∧
      Gathers r o b p := by
  have hrun := parse_run text offset scope
  cases hfirst : firstRound? text offset scope with
  | none =>
    rw [hfirst, h] at hrun
    obtain ⟨e, he, -⟩ := hrun
    cases he
  | some r =>
    rw [hfirst] at hrun
    cases hr : r.run with
    | ok o b =>
      simp only [hr, h] at hrun
      obtain ⟨p', heq, hp⟩ := hrun
      cases heq
      exact ⟨r, o, b, rfl, hr, rfl, hp⟩
    | error e b =>
      simp only [hr, h] at hrun
      cases hrun

/-- A text that is no expression fails in the signature of its definition or in the run. -/
theorem parse_error {e : ParseError} (h : (parse text offset scope).1 = .error e) :
    Regular e ∨ ∃ r b, firstRound? text offset scope = some r ∧ r.run = .error e b := by
  have hrun := parse_run text offset scope
  cases hfirst : firstRound? text offset scope with
  | none =>
    rw [hfirst, h] at hrun
    obtain ⟨e', heq, hr⟩ := hrun
    cases heq
    exact .inl hr
  | some r =>
    rw [hfirst] at hrun
    cases hr : r.run with
    | ok o b =>
      simp only [hr] at hrun
      obtain ⟨p, heq, -⟩ := hrun
      rw [heq] at h
      cases h
    | error e' b =>
      simp only [hr, h] at hrun
      cases hrun
      exact .inr ⟨r, b, rfl, hr⟩

theorem parse_of_isOk (text : String) (offset : Nat) (scope : TemplateScope ε)
    (h : (parse text offset scope).1.isOk) :
    ∃ p scope', parse text offset scope = (.ok p, scope') := by
  cases hparse : parse text offset scope with
  | mk result scope' =>
    rw [hparse] at h
    cases result with
    | error e => cases h
    | ok p => exact ⟨p, scope', rfl⟩

/-! ## What a parsed expression refers to -/

/-- `N` lists what stands at the positions in the tree of a parsed expression, whose scope is left
behind as `scope`. -/
structure Lists (N : Names) (p : Parsed ε) (scope : TemplateScope ε) : Prop where
  slots : N.slots.length = p.localCount
  params : p.params ≤ p.localCount
  identifiers : N.identifiers = p.identifiers
  nodup : p.identifiers.Nodup
  expressions : N.expressions.length = p.expressions.length
  defined : ∀ (target : Nat) (name : String), N.expressions[target]? = some name →
    ∃ e, p.expressions[target]? = some e ∧ scope.named? name = some (.defined e)
  bindings : N.bindings = scope.bindingNames
  defining : N.defining = p.name

/-- What describes the tables at the end of a run lists what the tree refers to. -/
theorem Gathers.lists {N M : Names} {r : Round ε} {o : Operand} {b : Bench ε} {p : Parsed ε}
    (h : Gathers r o b p) (hs : Describes N r.bench.tables r.bench.scope) (hg : N.Grows M)
    (hd : Describes M b.tables b.scope) : Lists M p b.scope where
  slots := by rw [hd.slots, h.localCount]
  params := by
    rw [h.params, h.localCount, ← hs.slots, ← hd.slots]
    exact hg.slots.length_le
  identifiers := by rw [hd.identifiers, h.identifiers]
  nodup := by
    rw [h.identifiers]
    exact hd.nodup
  expressions := by simp [hd.expressions, h.expressions]
  defined := by
    intro target name ht
    rw [hd.expressions, List.getElem?_map] at ht
    obtain ⟨entry, hentry, rfl⟩ := Option.map_eq_some_iff.mp ht
    refine ⟨entry.2, by simp [h.expressions, hentry], ?_⟩
    exact hd.defined entry (List.mem_of_getElem? hentry)
  bindings := hd.bindings
  defining := by rw [hg.defining, hs.defining, h.name]

/-- A parsed expression is derived from the words of its text, and its parameters take the first
local slots. -/
theorem parse_derives {p : Parsed ε} (h : parse text offset scope = (.ok p, scope')) :
    ∃ N o, Lists N p scope' ∧ paramsOf scope.extensions text <+: N.slots ∧ o.node = p.node ∧
      o.type = p.type ∧
      (N.callable = canCall scope' p.name ∧ N.extensions = scope.extensions) ∧ ¬ o.isPair ∧
      Derives N [o] (wordsOf scope.extensions text) := by
  obtain ⟨r, o, b, hfirst, hrun, rfl, hp⟩ := parse_ok h
  obtain ⟨N, hs, hext, hslots⟩ := firstRound?_stands hfirst
  have hstart := firstRound?_start hfirst
  have hmode : r.mode = .operand := by rw [hstart]; rfl
  have hfuel : r.fuel = r.at_.rest.length + 1 := by rw [hstart]; rfl
  have hat : r.at_ = bodyOf scope.extensions text := by rw [hstart]; rfl
  have hs' : Stands N r.mode r.bench [] := by
    rw [hmode]
    exact hs
  have hends := ends_rounds r.base hs' (firstRound?_laidOut hfirst).2
  obtain ⟨M, hg, hd, hpair, hder⟩ := hends.ok hrun
  rw [List.nil_append, hext, hmode, hfuel, hat] at hder
  have hlists := hp.lists hs.describes hg hd
  have hcallable : M.callable = canCall b.scope p.name := by
    rw [hd.callable, ← hd.defining, hlists.defining]
  exact ⟨M, o, hlists, hslots ▸ hg.slots, hp.node.symm, hp.type.symm,
    ⟨hcallable, hg.extensions.trans hext⟩, hpair, hder⟩

end Parse

end TagExpr
