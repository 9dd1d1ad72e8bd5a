import TagExpr.Proofs.Literal.Shorthand
import TagExpr.Proofs.Parse.Commas
import TagExpr.Proofs.Placing.Interpolation

/-!
# Shorthand interpolation

A name behind a dollar sign means what the name in braces means, unless it is a keyword
(`shorthand_is_interpolation`). A name is looked up without regard to the stacks (`Consults`), so a
source that is a name comes to what the name comes to (`isolated_name`), and the literals compile
alike part by part (`string_shorthand`). The texts around them are read alike, since no lexeme and
no signature but a literal has a quote in it (`alters_quote`). A keyword in braces is a constant,
and no name is (`string_keyword`).
-/

namespace TagExpr

/-- The node is a constant. -/
def Node.IsLiteral (node : Node) : Prop := ∃ value, node = .literal value

namespace Parse

open Signature (IsName)

variable {ε α β : Type} {b b' c c' : Bench ε} {name raw raw' : List Char} {o o' : Operand}
  {parts parts' : List Literal.Segment} {fuel fuel' : Nat} {span span' : Span}
  {extensions : Extensions}

/-! ## Looking up -/

section Consults

variable {P : α → Prop} {Q : β → Prop}

/-- The step looks something up: it never fails, does the same on whatever stacks and leaves them as
they are, and the locals in sight, too. -/
def Consults (P : α → Prop) (step : Parse ε α) : Prop :=
  ∀ scope tables, ∃ a t, P a ∧ t.locals = tables.locals ∧ ∀ operands operators,
    step ⟨scope, tables, operands, operators⟩ = .ok a ⟨scope, t, operands, operators⟩

theorem consults_pure {a : α} (h : P a) : Consults P (pure a : Parse ε α) :=
  fun _ tables => ⟨a, tables, h, rfl, fun _ _ => rfl⟩

theorem Consults.bind {step : Parse ε α} {next : α → Parse ε β} (h : Consults P step)
    (hnext : ∀ a, P a → Consults Q (next a)) : Consults Q (step >>= next) := by
  intro scope tables
  obtain ⟨a, t, ha, locals, run⟩ := h scope tables
  obtain ⟨a', t', ha', locals', run'⟩ := hnext a ha scope t
  exact ⟨a', t', ha', locals'.trans locals, fun operands operators =>
    (bind_of_ok (run operands operators)).trans (run' operands operators)⟩

theorem consults_identifier (key : IdentKey) :
    Consults (fun _ => True) (identifier key : Parse ε Nat) :=
  fun _ tables => ⟨(tables.identifier key).1, (tables.identifier key).2, trivial,
    (tables.locals_identifier key).1, fun _ _ => rfl⟩

theorem consults_namedCall? (name : String) (args : List Node) :
    Consults (fun found => ∀ node ∈ found, ¬ node.IsLiteral)
      (namedCall? name args : Parse ε (Option Node)) := by
  intro scope tables
  have same (found : Option Node) (h : ∀ node ∈ found, ¬ node.IsLiteral) :=
    @consults_pure ε _ (fun found => ∀ node ∈ found, ¬ node.IsLiteral) found h scope tables
  unfold namedCall?
  simp only [get_bind]
  cases scope.extensions.namedExpressions with
  | false => exact same none (by simp)
  | true =>
    cases scope.named? name with
    | none => exact same none (by simp)
    | some entry =>
      cases entry with
      | pending =>
        refine same (if tables.defining = some name then some (.recurse args) else none) ?_
        split <;> simp [Node.IsLiteral]
      | defined e =>
        exact ⟨some (.named (tables.expression name e).1 args), (tables.expression name e).2,
          by simp [Node.IsLiteral], (tables.locals_expression name e).1, fun _ _ => rfl⟩

/-- A name stands for something that is looked up, whatever it is. -/
theorem consults_resolveName (name : String) (lookup : Lookup) (span : Span) :
    Consults (fun o => ¬ o.isPair ∧ ¬ o.node.IsLiteral)
      (resolveName name lookup span : Parse ε Operand) := by
  have finished {node : Node} (h : ¬ node.IsLiteral) (bare : Option String) :
      Consults (fun o => ¬ o.isPair ∧ ¬ o.node.IsLiteral)
        (pure { Operand.object node span with name := bare } : Parse ε Operand) :=
    consults_pure ⟨by simp [Operand.isPair, Operand.object], h⟩
  have property : Consults (¬ ·.IsLiteral)
      (do return .identifier (← identifier (.property name)) lookup : Parse ε Node) :=
    (consults_identifier _).bind fun _ _ => consults_pure (by simp [Node.IsLiteral])
  unfold resolveName
  simp only
  split
  · exact property.bind fun _ h => finished h none
  · intro scope tables
    simp only [get_bind]
    cases tables.local? name with
    | some slot => exact finished (by simp [Node.IsLiteral]) _ scope tables
    | none =>
      cases scope.findBinding? name with
      | some found => exact finished (by simp [Node.IsLiteral]) _ scope tables
      | none =>
        refine (consults_namedCall? name []).bind (fun found h => ?_) scope tables
        cases found with
        | some node => exact finished (h node rfl) _
        | none => exact property.bind fun _ h => finished h _

theorem Consults.answers {step : Parse ε α} (h : Consults P step) : Answers P step := by
  intro b
  obtain ⟨a, t, ha, -, run⟩ := h b.scope b.tables
  rw [ends_of_ok (run b.operands b.operators)]
  exact ha

end Consults

/-! ## Sources of one word -/

/-- A name that is no keyword is read as one token. -/
theorem next_name (hn : IsName name) (plain : String.ofList name ∉ Signature.keywords) :
    ∃ span after, Token.next .operand (Cursor.start name) =
      .ok (⟨.ident ⟨.name (String.ofList name), .unstated, false⟩, span⟩, after) ∧
      after.rest = [] := by
  have ends : Token.NameEnds false [] := fun _ => ⟨fun _ h => (by cases h), by simp⟩
  have spelt : Token.NameToken .operand ([] ++ (name ++ ([] ++ []))) _ [] :=
    @Token.NameToken.operand .unstated [] name [] false .none hn ends fun _ _ => plain
  simp only [List.nil_append, List.append_nil] at spelt
  obtain ⟨span, after, hread, hafter⟩ :=
    spelt.read (show (Cursor.start name).rest = name from rfl)
  refine ⟨span, after, ?_, hafter⟩
  simpa only [Token.next, Cursor.start, spelt.startsIn 0, bind, Except.bind] using hread

/-- The source that is a name means what the name means. -/
theorem isolated_name (hn : IsName name) (plain : String.ofList name ∉ Signature.keywords)
    (fuel start : Nat) : ∃ span, (isolated (nestedParse (fuel + 2) name start) : Parse ε Operand) =
      resolveName (String.ofList name) .unstated span := by
  obtain ⟨span, after, hnext, hafter⟩ := next_name hn plain
  refine ⟨span.shift start, funext fun b => ?_⟩
  obtain ⟨o, t, ⟨ho, -⟩, locals, run⟩ :=
    consults_resolveName (String.ofList name) .unstated (span.shift start) b.scope b.tables
  have ends : Ends (nestedParse (fuel + 2) name start) ⟨b.scope, b.tables, .empty, .empty⟩
      (fun o' b' => o' = o ∧ b' = ⟨b.scope, t, ⟨[o]⟩, .empty⟩) fun _ _ => False := by
    refine ends_rounds_word hnext hafter ?_
    simp only [ident, Bool.false_eq_true, if_false, ends_bind]
    rw [ends_of_ok (run .empty .empty)]
    simp only [ends_pushOperand, ends_pure]
    exact ⟨trivial, o, ho, rfl, trivial, rfl, rfl⟩
  obtain ⟨_, _, ran, rfl, rfl⟩ := ends.exists_ok
  have whole : t.endScope b.tables.scopeMark = t := by
    rw [Tables.endScope, Tables.scopeMark, locals, Nat.sub_self, List.drop_zero, ← locals]
  rw [run b.operands b.operators]
  unfold isolated
  rw [get_bind, bind_of_ok (show (set _ : Parse ε PUnit) b = .ok _ _ from rfl), bind_of_ok ran]
  show EStateM.Result.ok _ _ = _
  simp only [whole]

/-- The source that is a keyword is a constant. -/
theorem isolated_keyword (hk : String.ofList name ∈ Signature.keywords) (fuel start : Nat) :
    Answers (fun o => o.node.IsLiteral)
      (isolated (nestedParse (fuel + 2) name start) : Parse ε Operand) := by
  have constant {kind : TokenKind} {span : Span} {after : Cursor} {o : Operand}
      (hnext : Token.next .operand (Cursor.start name) = .ok (⟨kind, span⟩, after))
      (hafter : after.rest = []) (ho : o.node.IsLiteral) (hpair : ¬ o.isPair)
      (completes : operand (nestedParse (fuel + 1)) kind (span.shift start) =
        (do pushOperand o; return .operator : Parse ε LexMode)) :
      Answers (fun o => o.node.IsLiteral)
        (isolated (nestedParse (fuel + 2) name start) : Parse ε Operand) := by
    intro b
    unfold isolated nestedParse
    rw [rounds_operand hnext, completes]
    simp only [ends_bind, ends_get, ends_set, ends_pushOperand, ends_pure]
    refine ends_rounds_end hafter hpair rfl rfl ?_
    simp only [ends_modify]
    exact ho
  have spelt {word : String} (h : String.ofList name = word) : name = word.toList := by
    rw [← h, String.toList_ofList]
  simp only [Signature.keywords, List.mem_cons, List.not_mem_nil, or_false] at hk
  rcases hk with hk | hk | hk <;> obtain rfl := spelt hk
  · have hnext : Token.next .operand (Cursor.start "null".toList) =
        .ok (⟨.null, ⟨0, 4⟩⟩, ⟨4, []⟩) := by decide +kernel
    exact constant hnext rfl ⟨.null, rfl⟩ (fun h => by cases h) rfl
  · have hnext : Token.next .operand (Cursor.start "true".toList) =
        .ok (⟨.bool true, ⟨0, 4⟩⟩, ⟨4, []⟩) := by decide +kernel
    exact constant hnext rfl ⟨.bool true, rfl⟩ (fun h => by cases h) rfl
  · have hnext : Token.next .operand (Cursor.start "false".toList) =
        .ok (⟨.bool false, ⟨0, 5⟩⟩, ⟨5, []⟩) := by decide +kernel
    exact constant hnext rfl ⟨.bool false, rfl⟩ (fun h => by cases h) rfl

/-! ## Literals -/

/-- What is alike gives the same node. -/
theorem parallel_node {L : Likeness} {step step' : Parse ε Operand}
    (h : Parallel L (Operand.Twin L) step step') :
    Parallel L Eq ((·.node) <$> step) ((·.node) <$> step') := by
  rw [map_eq_pure_bind, map_eq_pure_bind]
  exact h.bind fun o o' ho => parallel_pure ho.node.symm

/-- The parts are compiled alike, also where one is a shorthand that is spelt out. -/
theorem parallel_segment {part part' : Literal.Segment} (hn : IsName name)
    (plain : String.ofList name ∉ Signature.keywords)
    (same : Literal.Segment.Respelt name part part') (base base' : Nat)
    (lasts : ∀ source place, part = .expression source place → source.length < fuel)
    (lasts' : ∀ source place, part' = .expression source place → source.length < fuel') :
    Parallel (SpanRelation.anywhere.likeness extensions) Eq
      (segment (nestedParse fuel) base part : Parse ε Node)
      (segment (nestedParse fuel') base' part') := by
  have resolved (name : String) (span span' : Span) :
      Parallel (SpanRelation.anywhere.likeness extensions) Eq
        ((·.node) <$> resolveName name .unstated span : Parse ε Node)
        ((·.node) <$> resolveName name .unstated span') :=
    parallel_node (parallel_resolveName name .unstated trivial)
  cases same with
  | text text => exact parallel_pure rfl
  | expression source place place' =>
    exact parallel_node (parallel_isolated (parallel_rounds_same rfl (by simp)
      (lasts source place rfl) (lasts' source place' rfl)))
  | name other => exact resolved _ _ _
  | shorthand place place' =>
    have hlt : name.length < fuel' := lasts' name place' rfl
    have hpos := List.length_pos_iff.mpr hn.1
    obtain ⟨less, rfl⟩ : ∃ n, fuel' = n + 2 := ⟨fuel' - 2, by omega⟩
    obtain ⟨span, source⟩ := isolated_name (ε := ε) hn plain less (base' + place')
    simp only [segment, source]
    exact resolved _ _ _

theorem parallel_segments_each {L : Likeness} {nested nested' : List Char → Nat → Parse ε Operand}
    {base base' : Nat}
    (h : List.Forall₂ (fun part part' =>
      Parallel L Eq (segment nested base part) (segment nested' base' part')) parts parts') :
    Parallel L Eq (segments nested base parts) (segments nested' base' parts') := by
  induction h with
  | nil => exact parallel_pure rfl
  | cons hpart _ ih =>
    rw [segments_cons, segments_cons]
    refine hpart.bind ?_
    rintro node _ rfl
    refine ih.bind ?_
    rintro nodes _ rfl
    exact parallel_pure rfl

/-- A literal with an interpolation is compiled part by part. -/
theorem string_of_split {nested : List Char → Nat → Parse ε Operand} {raw : List Char}
    (hx : b.scope.extensions.interpolation) (hsplit : Literal.split raw = .ok parts)
    (several : ∀ text, parts ≠ [.text text]) (span : Span) :
    string nested raw true span b = (do
      return { node := .concat (← segments nested (span.start + 1) parts), type := .string, span }
        : Parse ε Operand) b := by
  unfold string
  simp only [get_bind, hx, Bool.and_self, if_true, hsplit]

/-- The step leaves the stacks as they are. -/
def Shelved (step : Parse ε α) : Prop :=
  ∀ b, Ends step b (fun _ b' => b'.operands = b.operands ∧ b'.operators = b.operators)
    (fun _ _ => True)

theorem shelved_pure (a : α) : Shelved (pure a : Parse ε α) := fun _ => ⟨rfl, rfl⟩

theorem Shelved.bind {step : Parse ε α} {next : α → Parse ε β} (h : Shelved step)
    (hnext : ∀ a, Shelved (next a)) : Shelved (step >>= next) := by
  intro b
  rw [ends_bind]
  refine (h b).mono ?_ fun _ _ _ => trivial
  rintro a b' ⟨operands, operators⟩
  refine (hnext a b').mono ?_ fun _ _ _ => trivial
  rintro a' b'' ⟨operands', operators'⟩
  exact ⟨operands'.trans operands, operators'.trans operators⟩

theorem Consults.shelved {P : α → Prop} {step : Parse ε α} (h : Consults P step) :
    Shelved step := by
  intro b
  obtain ⟨a, t, -, -, run⟩ := h b.scope b.tables
  rw [ends_of_ok (run b.operands b.operators)]
  exact ⟨rfl, rfl⟩

theorem shelved_isolated (parse : Parse ε Operand) : Shelved (isolated parse) := by
  intro b
  unfold isolated
  simp only [ends_bind, ends_get, ends_set, ends_modify, ends_pure]
  exact ends_of_forall fun _ _ => ⟨trivial, trivial⟩

theorem Shelved.map {step : Parse ε α} (h : Shelved step) (f : α → β) :
    Shelved (f <$> step) := by
  rw [map_eq_pure_bind]
  exact h.bind fun _ => shelved_pure _

theorem shelved_segments (nested : List Char → Nat → Parse ε Operand) (base : Nat)
    (parts : List Literal.Segment) : Shelved (segments nested base parts) := by
  induction parts with
  | nil => exact shelved_pure []
  | cons part parts ih =>
    have hpart : Shelved (segment nested base part) := by
      cases part with
      | text text => exact shelved_pure _
      | expression source place => exact (shelved_isolated _).map _
      | name name place => exact (consults_resolveName _ _ _).shelved.map _
    rw [segments_cons]
    exact hpart.bind fun _ => ih.bind fun _ => shelved_pure _

/-- **A shorthand means what the name in braces means.** On every bench both literals compile to the
same node and leave the same tables, or both fail, with the same fault. -/
theorem string_shorthand (h : Literal.Shorthand name raw raw')
    (plain : String.ofList name ∉ Signature.keywords)
    (hx : b.scope.extensions.interpolation) (lasts : raw.length ≤ fuel)
    (lasts' : raw'.length ≤ fuel') (span span' : Span) :
    match string (nestedParse fuel) raw true span b with
    | .ok o b' => string (nestedParse fuel') raw' true span' b = .ok { o with span := span' } b'
    | .error e b' => ∃ e' b'', string (nestedParse fuel') raw' true span' b = .error e' b'' ∧
        e'.fault = e.fault ∧ b''.scope = b'.scope := by
  obtain @⟨before, behind, parts, hsplit, hmem⟩ := h
  obtain ⟨-, hn, parts', -, hsplit', same, -⟩ := Literal.split_speltOut hsplit hmem
  have several := Literal.ne_text_of_respelt same hmem
  rw [string_of_split hx hsplit fun text => (several text).1,
    string_of_split hx hsplit' fun text => (several text).2]
  have alike : Parallel (SpanRelation.anywhere.likeness b.scope.extensions) Eq
      (segments (nestedParse fuel) (span.start + 1) parts : Parse ε (List Node))
      (segments (nestedParse fuel') (span'.start + 1) parts') :=
    parallel_segments_each <| forall₂_mono_of_mem same fun part part' h h' hpart =>
      parallel_segment hn plain hpart _ _
        (fun source place heq =>
          Nat.lt_of_lt_of_le (Literal.length_of_mem_split hsplit (heq ▸ h)) lasts)
        fun source place heq =>
          Nat.lt_of_lt_of_le (Literal.length_of_mem_split hsplit' (heq ▸ h')) lasts'
  have joined := alike b b (.same b)
  have kept := shelved_segments (nestedParse fuel) (span.start + 1) parts b
  have kept' := shelved_segments (nestedParse fuel') (span'.start + 1) parts' b
  simp only [Bind.bind, EStateM.bind]
  unfold Ends at kept kept'
  generalize segments (nestedParse fuel) (span.start + 1) parts b = ended at joined kept ⊢
  generalize segments (nestedParse fuel') (span'.start + 1) parts' b = ended' at joined kept' ⊢
  cases joined with
  | ok hnodes hb =>
    obtain rfl := hnodes
    obtain rfl := hb.eq (kept'.1.trans kept.1.symm) (kept'.2.trans kept.2.symm)
    rfl
  | error he hs => exact ⟨_, _, rfl, he.1, hs.eq_of_likeness⟩
  | lenient h => exact absurd trivial h

/-! ## Keywords -/

theorem answers_each_segment {nested : List Char → Nat → Parse ε Operand} {base : Nat}
    {Q : Literal.Segment → Node → Prop}
    (each : ∀ part ∈ parts, Answers (Q part) (segment nested base part)) :
    Answers (List.Forall₂ Q parts) (segments nested base parts) := by
  induction parts with
  | nil => exact answers_pure .nil
  | cons part parts ih =>
    rw [segments_cons]
    refine (each part List.mem_cons_self).bind fun _ hnode => ?_
    refine (ih fun part h => each part (List.mem_cons_of_mem _ h)).bind fun _ hnodes => ?_
    exact answers_pure (.cons hnode hnodes)

theorem answers_node {P : Node → Prop} {step : Parse ε Operand}
    (h : Answers (fun o => P o.node) step) : Answers P ((·.node) <$> step) := by
  rw [map_eq_pure_bind]
  exact h.bind fun _ ho => answers_pure ho

theorem exists_of_mem_zip {γ : Type} {as : List α} {bs : List β} {cs : List γ} {R : α → γ → Prop}
    {S : β → γ → Prop} (h : List.Forall₂ R as cs) (h' : List.Forall₂ S bs cs) {a : α} {b : β}
    (hmem : (a, b) ∈ as.zip bs) : ∃ c, R a c ∧ S b c := by
  induction h generalizing bs with
  | nil => simp at hmem
  | cons ha _ ih =>
    cases h' with
    | cons hb hrest =>
      rcases List.mem_cons.mp hmem with heq | hmem
      · cases heq
        exact ⟨_, ha, hb⟩
      · exact ih hrest hmem

/-- **A shorthand of a keyword is not what the keyword in braces is**: it is looked up as a name,
and what is in braces is the constant. -/
theorem string_keyword (h : Literal.Shorthand name raw raw')
    (hk : String.ofList name ∈ Signature.keywords)
    (hx : b.scope.extensions.interpolation) (hx' : c.scope.extensions.interpolation)
    (lasts' : raw'.length ≤ fuel')
    (ran : string (nestedParse fuel) raw true span b = .ok o b')
    (ran' : string (nestedParse fuel') raw' true span' c = .ok o' c') : o'.node ≠ o.node := by
  obtain @⟨before, behind, parts, hsplit, hmem⟩ := h
  obtain ⟨-, hn, parts', place', hsplit', same, hzip⟩ := Literal.split_speltOut hsplit hmem
  have several := Literal.ne_text_of_respelt same hmem
  rw [string_of_split hx hsplit fun text => (several text).1] at ran
  rw [string_of_split hx' hsplit' fun text => (several text).2] at ran'
  obtain ⟨nodes, b₁, hnodes, ran⟩ := exists_of_bind ran
  obtain ⟨nodes', c₁, hnodes', ran'⟩ := exists_of_bind ran'
  cases ran
  cases ran'
  have looked : List.Forall₂ (fun part (node : Node) =>
      ∀ place, part = .name name place → ¬ node.IsLiteral) parts nodes := by
    refine (answers_each_segment (fun part _ => ?_) b).ok hnodes
    cases part with
    | text | expression => exact (answers_any _).mono (by simp)
    | name => exact answers_node ((consults_resolveName _ _ _).answers.mono fun _ h _ _ => h.2)
  have constant : List.Forall₂ (fun part (node : Node) =>
      ∀ place, part = .expression name place → node.IsLiteral) parts' nodes' := by
    refine (answers_each_segment (fun part h => ?_) c).ok hnodes'
    cases part with
    | text | name => exact (answers_any _).mono (by simp)
    | expression source place =>
      by_cases hs : source = name
      · subst hs
        have hlt := Literal.length_of_mem_split hsplit' h
        have hpos := List.length_pos_iff.mpr hn.1
        obtain ⟨less, rfl⟩ : ∃ n, fuel' = n + 2 := ⟨fuel' - 2, by omega⟩
        exact answers_node ((isolated_keyword hk less _).mono fun _ h _ _ => h)
      · refine (answers_any _).mono ?_
        rintro _ - _ heq
        cases heq
        exact absurd rfl hs
  intro heq
  obtain rfl : nodes' = nodes := Node.concat.inj heq
  obtain ⟨node, hnot, hconstant⟩ := exists_of_mem_zip looked constant hzip
  exact hnot _ rfl (hconstant _ rfl)

end Parse

/-! ## The literal in its text -/

namespace Signature

variable {p x t : List Char}

theorem writes_unquoted : Writes (· != '"') where
  part c hpart := bne_iff_ne.mpr (Token.isNamePart_ne hpart (by decide))
  sign := by simp

/-- No signature runs past a quote. -/
theorem Begins.before_quote {P : List (List Char) → Prop}
    (hP : ∀ lexemes, P lexemes → ∀ lexeme ∈ lexemes, lexeme.all (· != '"'))
    (h : Begins P (p ++ '"' :: t)) (x : List Char) : Begins P (p ++ '"' :: x) := by
  obtain ⟨lexemes, written, rest, hlex, hlaid, heq⟩ := h
  have unquoted : '"' ∉ written := by
    intro hmem
    rcases hlaid.mem hmem with hsep | ⟨lexeme, hl, hc⟩
    · cases hsep
    · exact absurd (List.all_eq_true.mp (hP lexemes hlex lexeme hl) _ hc) (by decide)
  rcases List.append_eq_append_iff.mp heq with ⟨part, rfl, hpart⟩ | ⟨part, rfl, -⟩
  · cases part with
    | nil => exact ⟨lexemes, p, '"' :: x, hlex, by simpa using hlaid, rfl⟩
    | cons c part =>
      obtain ⟨rfl, -⟩ := List.cons.inj hpart
      simp at unquoted
  · exact ⟨lexemes, written, part ++ '"' :: x, hlex, hlaid, by simp⟩

end Signature

namespace Token

variable {f : List Char → Nat}

/-- Only a literal has a quote in it. -/
theorem IsLength.unquoted (hf : IsLength f) (text : List Char) :
    MadeOf (· != '"') text (f text) := by
  have letters {c : Char} (hc : isLetter c) : c != '"' := by
    rw [bne_iff_ne]
    rintro rfl
    cases hc
  cases hf with
  | plain hplain => exact (lettered_of_isPlain hplain text).mono fun _ => letters
  | callable => exact (lettered_callable text).mono fun _ => letters
  | symbols | operators => exact madeOf_symbols (by decide) text

theorem IsLength.le_of_quote (hf : IsLength f) (p t : List Char) :
    f (p ++ '"' :: t) ≤ p.length := by
  by_contra hlt
  have hquote : '"' ∈ (p ++ '"' :: t).take (f (p ++ '"' :: t)) := by
    rw [List.take_append, List.mem_append]
    refine .inr ?_
    obtain ⟨n, hn⟩ : ∃ n, f (p ++ '"' :: t) - p.length = n + 1 :=
      ⟨f (p ++ '"' :: t) - p.length - 1, by omega⟩
    rw [hn]
    exact List.mem_cons_self
  exact absurd (hf.unquoted _ _ hquote) (by decide)

end Token

/-- Behind a quote a text may go on otherwise: what is read before it ends there. -/
theorem alters_quote {x t : List Char} {more : Nat} (h : t.length = x.length + more) :
    Alters ('"' :: x) ('"' :: t) more where
  token p := ⟨fun _ hf hle => hf.cuts.exchange hle (hf.le_of_quote p t), by simp⟩
  clause _ begins := begins.before_quote (fun _ hl => hl.written Signature.writes_unquoted) x
  definition _ begins := begins.before_quote (fun _ hl => hl.written Signature.writes_unquoted) x
  length := by
    rw [List.length_cons, List.length_cons, h]
    omega

namespace Parse

variable {ε : Type} {first r r' : Round ε} {name raw raw' : List Char} {after : Cursor}

/-! ## Runs -/

/-- Where an operand is expected, the run comes to the literal, and interpolation is on. -/
structure AtLiteral (first : Round ε) (raw : List Char) (after : Cursor) (r : Round ε) : Prop where
  proceeds : Proceeds first r
  expected : r.mode = .operand
  enabled : r.bench.scope.extensions.interpolation
  token : ∃ span, Token.next .operand r.at_ = .ok (⟨.str raw true, span⟩, after)

theorem rounds_literal {fuel base : Nat} {at_ : Cursor} {span : Span}
    (h : Token.next .operand at_ = .ok (⟨.str raw true, span⟩, after)) :
    (rounds (fuel + 1) .operand base at_ : Parse ε Operand) = (do
      let o ← string (nestedParse fuel) raw true (span.shift base)
      pushOperand o
      rounds fuel .operator base after) := by
  rw [rounds_operand h]
  simp only [operand, bind_assoc, pure_bind]

/-- With the shorthand spelt out the run goes on behind the literal as it did. -/
theorem AtLiteral.matches (h : AtLiteral first raw after r) (laid : r.LaidOut)
    (hs : Literal.Shorthand name raw raw') (plain : String.ofList name ∉ Signature.keywords)
    (alt : r.Altered ('"' :: (raw ++ '"' :: after.rest))
      ('"' :: (raw' ++ '"' :: after.rest)) 2 r') :
    ∃ extensions, Matches (SpanRelation.anywhere.likeness extensions)
      (Operand.Twin (SpanRelation.anywhere.likeness extensions)) r.run r'.run := by
  obtain ⟨-, hmode, hx, span, hnext⟩ := h
  obtain ⟨_, ⟨q, hq, rfl⟩, rfl⟩ := alt
  obtain ⟨gap, hgap, skips, hext⟩ := Token.gap_of_quoted hnext
  obtain rfl := List.append_cancel_right (hq.symm.trans hgap)
  obtain ⟨span', after', hnext', hafter⟩ :=
    Token.next_quoted skips (Token.quotedExtent_shorthand hs hext) r.at_.offset
  obtain ⟨fuel, mode, base, at_, bench⟩ := r
  obtain rfl : mode = .operand := hmode
  have lasts : at_.rest.length < fuel := laid.2
  have longer : raw'.length = raw.length + 2 := hs.length
  have written : at_.rest.length = q.length + (raw.length + (after.rest.length + 2)) := by
    rw [show at_.rest = _ from hgap]
    simp only [List.length_append, List.length_cons]
    omega
  obtain ⟨fuel, rfl⟩ : ∃ n, fuel = n + 1 := ⟨fuel - 1, by omega⟩
  have same := string_shorthand hs plain hx (show raw.length ≤ fuel by omega)
    (show raw'.length ≤ fuel + 2 by omega) (span.shift base) (span'.shift base)
  unfold Round.run
  simp only [show fuel + 1 + 2 = fuel + 2 + 1 from rfl]
  rw [rounds_literal hnext, rounds_literal hnext']
  generalize compiled : string (nestedParse fuel) raw true (span.shift base) bench = ended at same
  cases ended with
  | ok o b' =>
    rw [bind_of_ok compiled, bind_of_ok same]
    refine ⟨b'.scope.extensions, ?_⟩
    refine ((parallel_pushOperand (.moved o _)).bind fun _ _ _ => ?_) b' b' (.same b')
    exact parallel_rounds_same hafter (by simp) (by omega) (by rw [hafter]; omega)
  | error e b' =>
    obtain ⟨e', b'', same, hfault, hscope⟩ := same
    simp only [Bind.bind, EStateM.bind, compiled, same]
    refine ⟨b'.scope.extensions, .error ⟨hfault, trivial⟩ ?_⟩
    rw [hscope]
    exact .of_likeness b'.scope

/-- Two texts that differ in such a literal parse alike. -/
theorem AtLiteral.parse_alike {text text' : String} {offset : Nat} {scope : TemplateScope ε}
    {before : List Char} (h : AtLiteral first raw after r) (hs : Literal.Shorthand name raw raw')
    (plain : String.ofList name ∉ Signature.keywords)
    (hfirst : firstRound? text offset scope = some first)
    (htext : text.toList = before ++ '"' :: (raw ++ '"' :: after.rest))
    (htext' : text'.toList = before ++ '"' :: (raw' ++ '"' :: after.rest)) :
    SameOutcome .anywhere (Parsed.Twin .anywhere) (parse text offset scope)
      (parse text' offset scope) := by
  have laid := h.proceeds.visits.laidOut (firstRound?_laidOut hfirst)
  have alters : Alters ('"' :: (raw ++ '"' :: after.rest)) ('"' :: (raw' ++ '"' :: after.rest)) 2 :=
    alters_quote (by simp only [List.length_append, hs.length]; omega)
  obtain ⟨span, hnext⟩ := h.token
  obtain ⟨gap, hgap, -⟩ := Token.gap_of_quoted hnext
  obtain ⟨first', r', -, -, alt, same⟩ :=
    h.proceeds.parse_altered alters hfirst htext htext' ⟨gap, hgap.symm⟩
  obtain ⟨extensions, ends⟩ := h.matches laid hs plain alt
  exact same extensions ends

end Parse

open Parse

variable {ε : Type} {name raw raw' : List Char}

/-- **A shorthand is what its name in braces is**, unless the name is a keyword. On every bench the
literal with the shorthand and the one in which it is spelt out compile to the same node and leave
the same tables, or fail with the same fault, and two texts that differ in such a literal parse
alike. A keyword in braces is a constant, and behind a dollar sign it is looked up as a name, so the
literals never compile to the same node. -/
theorem shorthand_is_interpolation (h : Literal.Shorthand name raw raw') :
    (String.ofList name ∉ Signature.keywords →
      (∀ (b : Bench ε) fuel fuel' span span', b.scope.extensions.interpolation →
        raw.length ≤ fuel → raw'.length ≤ fuel' →
          match string (nestedParse fuel) raw true span b with
          | .ok o b' =>
            string (nestedParse fuel') raw' true span' b = .ok { o with span := span' } b'
          | .error e b' => ∃ e' b'', string (nestedParse fuel') raw' true span' b = .error e' b'' ∧
              e'.fault = e.fault ∧ b''.scope = b'.scope) ∧
      ∀ text text' offset (scope : TemplateScope ε) first r after before,
        firstRound? text offset scope = some first → AtLiteral first raw after r →
        text.toList = before ++ '"' :: (raw ++ '"' :: after.rest) →
        text'.toList = before ++ '"' :: (raw' ++ '"' :: after.rest) →
          SameOutcome .anywhere (Parsed.Twin .anywhere) (parse text offset scope)
            (parse text' offset scope)) ∧
    (String.ofList name ∈ Signature.keywords →
      ∀ (b c : Bench ε) fuel fuel' span span' o o' b' c', b.scope.extensions.interpolation →
        c.scope.extensions.interpolation → raw'.length ≤ fuel' →
        string (nestedParse fuel) raw true span b = .ok o b' →
        string (nestedParse fuel') raw' true span' c = .ok o' c' → o'.node ≠ o.node) := by
  refine ⟨fun plain => ⟨?_, ?_⟩, ?_⟩
  · exact fun b fuel fuel' span span' hx lasts lasts' =>
      string_shorthand h plain hx lasts lasts' _ _
  · exact fun text text' offset scope first r after before hfirst literal htext htext' =>
      literal.parse_alike h plain hfirst htext htext'
  · exact fun hk b c fuel fuel' span span' o o' b' c' hx hx' lasts' ran ran' =>
      string_keyword h hk hx hx' lasts' ran ran'

/-- A local in a greeting. -/
theorem shorthand_is_interpolation_of_local :
    ∃ p scope' span,
      parse "x = 1; \"Hi $x!\"" 0 (TemplateScope.fresh : TemplateScope Nat) = (.ok p, scope') ∧
      parse "x = 1; \"Hi $\x7bx\x7d!\"" 0 (TemplateScope.fresh : TemplateScope Nat) =
        (.ok { p with span }, scope') := by
  have h : Literal.Shorthand "x".toList "Hi $x!".toList "Hi $\x7bx\x7d!".toList :=
    @Literal.Shorthand.intro "x".toList "Hi ".toList "!".toList
      [.text "Hi ".toList, .name "x".toList 4, .text "!".toList] (by decide) (by decide)
  obtain ⟨alike, -⟩ := shorthand_is_interpolation (ε := Nat) h
  obtain ⟨-, texts⟩ := alike (by decide)
  have target : Token.next .operand ⟨0, "x = 1; \"Hi $x!\"".toList⟩ =
      .ok (⟨.ident ⟨.name "x", .unstated, false⟩, ⟨0, 1⟩⟩, ⟨1, " = 1; \"Hi $x!\"".toList⟩) := by
    decide +kernel
  have equals : Token.next .operator ⟨1, " = 1; \"Hi $x!\"".toList⟩ =
      .ok (⟨.operator "=", ⟨2, 3⟩⟩, ⟨3, " 1; \"Hi $x!\"".toList⟩) := by decide +kernel
  have value : Token.next .operand ⟨3, " 1; \"Hi $x!\"".toList⟩ =
      .ok (⟨.int 1, ⟨4, 5⟩⟩, ⟨5, "; \"Hi $x!\"".toList⟩) := by decide +kernel
  have semicolon : Token.next .operator ⟨5, "; \"Hi $x!\"".toList⟩ =
      .ok (⟨.operator ";", ⟨5, 6⟩⟩, ⟨6, " \"Hi $x!\"".toList⟩) := by decide +kernel
  have literal : Token.next .operand ⟨6, " \"Hi $x!\"".toList⟩ =
      .ok (⟨.str "Hi $x!".toList true, ⟨7, 15⟩⟩, ⟨15, []⟩) := by decide +kernel
  have hfirst : firstRound? "x = 1; \"Hi $x!\"" 0 (TemplateScope.fresh : TemplateScope Nat) =
      some ⟨16, .operand, 0, ⟨0, "x = 1; \"Hi $x!\"".toList⟩, { scope := .fresh, tables := {} }⟩ :=
    rfl
  have start : Proceeds (Round.mk 16 .operand 0 ⟨0, "x = 1; \"Hi $x!\"".toList⟩
      { scope := (TemplateScope.fresh : TemplateScope Nat), tables := {} }) _ := .refl
  have assigned := (((start.tail ⟨_, .operand target rfl⟩).tail ⟨_, .operator equals rfl⟩).tail
    ⟨_, .operand value rfl⟩).tail ⟨_, .operator semicolon rfl⟩
  have at_ : AtLiteral _ "Hi $x!".toList _ _ := ⟨assigned, rfl, rfl, _, literal⟩
  have outcome := texts _ "x = 1; \"Hi $\x7bx\x7d!\"" 0 _ _ _ _ "x = 1; ".toList hfirst at_ rfl rfl
  obtain ⟨p, scope', hparse⟩ := parse_of_isOk "x = 1; \"Hi $x!\"" 0
    (TemplateScope.fresh : TemplateScope Nat) (by decide +kernel)
  rw [hparse] at outcome
  generalize parse "x = 1; \"Hi $\x7bx\x7d!\"" 0 TemplateScope.fresh = ended at outcome
  cases outcome with
  | ok twin =>
    obtain ⟨-⟩ := twin
    exact ⟨p, scope', _, hparse, rfl⟩

/-- Behind a dollar sign a keyword is looked up. -/
theorem shorthand_of_keyword_is_looked_up :
    (parse (ε := Nat) "\"$true\"" 0 .fresh).1.map (·.identifiers) = .ok [.property "true"] ∧
      (parse (ε := Nat) "\"$\x7btrue\x7d\"" 0 .fresh).1.map (·.identifiers) = .ok [] := by
  decide +kernel

end TagExpr
