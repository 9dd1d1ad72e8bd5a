import TagExpr.Proofs.Placing.Course
import TagExpr.Proofs.Token.Gaps
import TagExpr.Proofs.Token.Signatures

/-!
# Filler between tokens

Separators and comments that are put in between two tokens change nothing about what a text parses
to (`parse_filled`), with one exception: right after a navigation operator, and before and inside of
the signatures of definitions and the clauses of streaming operators, only separators are skipped
(`Between`, `Boundary`). A comment there makes a text fail that parses without it.
-/

namespace TagExpr

variable {ε : Type} {x : List Char}

/-- Nothing is asked of the places. -/
def SpanRelation.anywhere : SpanRelation where
  rel _ _ := True
  merge _ _ := trivial

/-- A run of separators, or a block comment between two spaces. -/
inductive IsFiller : Bool → List Char → Prop
  | separators {gap : List Char} : (∀ c ∈ gap, Text.isSeparator c) → IsFiller false gap
  | comment {body : List Char} : ¬ "*/".toList <:+: body →
      IsFiller true (' ' :: '/' :: '*' :: body ++ ['*', '/', ' '])

variable {comment : Bool} {filler : List Char}

namespace IsFiller

theorem stops (h : IsFiller comment filler) (hne : filler ≠ []) (rest : List Char) :
    Token.Stops (filler ++ rest) := by
  cases h with
  | separators hgap =>
    cases filler with
    | nil => exact absurd rfl hne
    | cons c gap => exact ⟨c, gap ++ rest, rfl, hgap c List.mem_cons_self⟩
  | comment => exact ⟨' ', _, rfl, rfl⟩

theorem skips (h : IsFiller comment filler) {mode : LexMode}
    (hm : comment = true → mode ≠ .member) : Token.Skips mode filler := by
  cases h with
  | separators hgap => exact Token.skips_separators hgap mode
  | comment hbody => exact Token.skips_comment (hm rfl) hbody

/-- Filler is separators, and then a comment if it holds one. -/
theorem split (h : IsFiller comment filler) : ∃ gap rest, filler = gap ++ rest ∧
    (∀ c ∈ gap, Text.isSeparator c) ∧ (rest = [] ∨ rest.head? = some '/') := by
  cases h with
  | separators hgap => exact ⟨filler, [], (List.append_nil _).symm, hgap, .inl rfl⟩
  | comment => exact ⟨[' '], _, rfl, by simp [Text.isSeparator], .inr rfl⟩

theorem blank (h : IsFiller false filler) : ∀ c ∈ filler, Text.isSeparator c := by
  cases h with
  | separators hgap => exact hgap

end IsFiller

/-! ## What is read does not depend on the offset -/

namespace Token

/-- Both places are before the same characters. -/
abbrev SameRest : TokenKind → Span → Span → Cursor → Cursor → Prop :=
  fun _ _ _ after after' => after'.rest = after.rest

theorem skipFiller_offset (filler : Filler) (offset offset' opened : Nat) (text : List Char) :
    (skipFiller (reopen opened filler) offset' text).toOption.map Cursor.rest =
      (skipFiller filler offset text).toOption.map Cursor.rest := by
  fun_induction skipFiller filler offset text generalizing offset' opened with
  | case1 | case2 | case3 => rfl
  | case4 _ _ ih | case6 _ _ _ ih | case8 _ _ ih => exact ih _ opened
  | case9 offset _ ih => exact ih (offset' + 2) offset'
  | case5 offset c rest hc ih =>
    rw [← ih (offset' + c.utf8Size) opened]
    show Option.map _ (Except.toOption (skipFiller .line _ _)) = _
    rw [skipFiller]
    · rfl
    · exact hc
  | case7 _ offset c rest hc ih =>
    rw [← ih (offset' + c.utf8Size) opened]
    show Option.map _ (Except.toOption (skipFiller (.block opened) _ _)) = _
    rw [skipFiller]
    · rfl
    · exact hc
  | case10 offset c rest hline hblock hsep ih =>
    rw [← ih (offset' + 1) opened]
    show Option.map _ (Except.toOption (skipFiller .outside _ _)) = _
    rw [skipFiller]
    · rw [if_pos hsep]
      rfl
    · exact hline
    · exact hblock
  | case11 offset c rest hline hblock hsep =>
    show Option.map _ (Except.toOption (skipFiller .outside _ _)) = _
    rw [skipFiller]
    · rw [if_neg hsep]
      rfl
    · exact hline
    · exact hblock

theorem skip_offset (mode : LexMode) (offset offset' : Nat) (text : List Char) :
    (∃ found found', skip mode ⟨offset, text⟩ = .ok found ∧ skip mode ⟨offset', text⟩ = .ok found' ∧
        found'.rest = found.rest) ∨
      ∃ span span', skip mode ⟨offset, text⟩ = .error ⟨.unterminatedComment, span⟩ ∧
        skip mode ⟨offset', text⟩ = .error ⟨.unterminatedComment, span'⟩ := by
  have same := skipFiller_offset .outside offset offset' 0 text
  unfold skip
  cases mode with
  | member => exact .inl ⟨_, _, rfl, rfl, rfl⟩
  | operand | operator =>
    simp only [reopen] at same
    cases hfound : skipFiller .outside offset text <;>
      cases hfound' : skipFiller .outside offset' text <;> rw [hfound, hfound'] at same
    · exact .inr ⟨_, _, rfl, rfl⟩
    · cases same
    · cases same
    · exact .inl ⟨_, _, rfl, rfl, Option.some.inj same⟩

variable {base base' : Nat}

theorem take_offset (offset offset' count : Nat) (text : List Char)
    (kind : Except LexFault TokenKind) :
    SameRead .anywhere base base' SameRest (take ⟨offset, text⟩ count kind)
      (take ⟨offset', text⟩ count kind) := by
  cases kind with
  | ok kind => exact .token trivial rfl
  | error fault => exact .fault trivial

theorem read_offset (mode : LexMode) (offset offset' : Nat) (text : List Char) :
    SameRead .anywhere base base' SameRest (read mode ⟨offset, text⟩)
      (read mode ⟨offset', text⟩) := by
  cases text with
  | nil => exact .token trivial rfl
  | cons first rest =>
    unfold read
    simp only
    cases mode with
    | operand =>
      simp only
      split
      · exact take_offset ..
      · exact .fault trivial
    | operator | member =>
      simp only
      split
      · exact .fault trivial
      · exact take_offset ..

/-- Before the same characters the same is read. -/
theorem next_offset (mode : LexMode) {c c' : Cursor} (h : c'.rest = c.rest) :
    SameRead .anywhere base base' SameRest (next mode c) (next mode c') := by
  obtain ⟨offset, text⟩ := c
  obtain ⟨offset', _⟩ := c'
  cases h
  unfold next
  rcases skip_offset mode offset offset' text with
    ⟨⟨place, rest⟩, ⟨place', _⟩, hskip, hskip', rfl⟩ | ⟨span, span', hskip, hskip'⟩
  · simp only [hskip, hskip', bind, Except.bind]
    exact read_offset ..
  · simp only [hskip, hskip', bind, Except.bind]
    exact .fault trivial

/-- Before what is skipped the same is read as behind it. -/
theorem next_skip {mode : LexMode} {gap : List Char} (hg : Skips mode gap) (offset : Nat)
    (text : List Char) : next mode ⟨offset, gap ++ text⟩ =
      next mode ⟨offset + byteLength gap, text⟩ := by
  simp only [next, hg offset text]

end Token

/-! ## Signatures and clauses -/

namespace Signature

variable {p before after : List Char} {lexemes : List (List Char)} {at_ at_' : Cursor}

/-- The place between the two texts is before one of the lexemes. -/
def Inside (lexemes : List (List Char)) (before after : List Char) : Prop :=
  ∃ done written gap next todo, lexemes = done ++ next :: todo ∧ before = written ++ gap ∧
    Laid done written ∧ (∀ c ∈ gap, Text.isSeparator c) ∧ Laid (next :: todo) after

/-- Separators may be put in there. -/
theorem Inside.fill (h : Inside lexemes before after) (hf : ∀ c ∈ filler, Text.isSeparator c) :
    Laid lexemes (before ++ (filler ++ after)) := by
  obtain ⟨done, written, gap, next, todo, rfl, rfl, hdone, hgap, htodo⟩ := h
  have later := (htodo.after hf).after hgap
  simpa using hdone.append later

/-- Neither a separator nor a slash is in the lexeme. -/
def plain (lexeme : List Char) : Bool := lexeme.all fun c => !Text.isSeparator c && c != '/'

theorem plain_of_all (h : ∀ lexeme ∈ lexemes, plain lexeme) : Plain lexemes := by
  have each : ∀ lexeme ∈ lexemes, ∀ c ∈ lexeme, Text.isSeparator c = false ∧ c ≠ '/' := by
    intro lexeme hl c hc
    simpa using List.all_eq_true.mp (h lexeme hl) c hc
  exact ⟨fun lexeme hl c hc => (each lexeme hl c hc).1,
    fun lexeme hl hc => (each lexeme hl _ hc).2 rfl⟩

/-- The characters are among those that signatures are written with. -/
structure Writes (P : Char → Bool) : Prop where
  part : ∀ c, Token.isNamePart c → P c
  sign : ∀ c ∈ ['(', ')', ',', '-', '=', '>'], P c

section Writes

variable {P : Char → Bool}

theorem writes_plain : Writes fun c => !Text.isSeparator c && c != '/' where
  part c hpart := by
    have hslash : c ≠ '/' := by
      rintro rfl
      cases hpart
    simpa using ⟨Token.isSeparator_of_isNamePart hpart, hslash⟩
  sign := by simp [Text.isSeparator]

theorem Writes.name (w : Writes P) {name : List Char} (h : IsName name) : name.all P :=
  List.all_eq_true.mpr fun c hc => w.part c (h.part c hc)

theorem Writes.laterParams (w : Writes P) {names : List (List Char)} (h : ∀ n ∈ names, IsName n) :
    ∀ lexeme ∈ laterParams names, lexeme.all P := by
  induction names with
  | nil => simp [Signature.laterParams, w.sign]
  | cons name names ih =>
    have later := ih fun n hn => h n (List.mem_cons_of_mem _ hn)
    have comma : [','].all P := by simp [w.sign]
    exact List.forall_mem_cons.mpr ⟨comma,
      List.forall_mem_cons.mpr ⟨w.name (h name List.mem_cons_self), later⟩⟩

theorem Writes.params (w : Writes P) {names : List (List Char)} (h : ∀ n ∈ names, IsName n) :
    ∀ lexeme ∈ paramLexemes names, lexeme.all P := by
  cases names with
  | nil => exact w.laterParams h
  | cons name names =>
    have later := w.laterParams fun n hn => h n (List.mem_cons_of_mem _ hn)
    exact List.forall_mem_cons.mpr ⟨w.name (h name List.mem_cons_self), later⟩

theorem Writes.arrow (w : Writes P) (discard : Bool) : (arrow discard).all P := by
  cases discard <;> simp [Signature.arrow, w.sign]

end Writes

/-- The lexemes of a clause. -/
def ClauseLexemes (lexemes : List (List Char)) : Prop :=
  ∃ name, Names name ∧ lexemes = [name, clauseArrow]

theorem ClauseLexemes.written (h : ClauseLexemes lexemes) {P : Char → Bool} (w : Writes P) :
    ∀ lexeme ∈ lexemes, lexeme.all P := by
  obtain ⟨name, hname, rfl⟩ := h
  intro lexeme hl
  rcases List.mem_pair.mp hl with rfl | rfl
  · exact w.name hname.1
  · exact w.arrow false

theorem ClauseLexemes.plain (h : ClauseLexemes lexemes) : Plain lexemes :=
  plain_of_all (h.written writes_plain)

/-- The lexemes of the signature of a definition. -/
def DefinitionLexemes (lexemes : List (List Char)) : Prop :=
  ∃ name params discard, Names name ∧ (∀ n ∈ params, IsName n) ∧ Heads name params discard lexemes

theorem DefinitionLexemes.written (h : DefinitionLexemes lexemes) {P : Char → Bool}
    (w : Writes P) : ∀ lexeme ∈ lexemes, lexeme.all P := by
  obtain ⟨name, params, discard, hname, hparams, hheads⟩ := h
  intro lexeme hl
  cases hheads with
  | bare =>
    rcases List.mem_pair.mp hl with rfl | rfl
    · exact w.name hname.1
    · exact w.arrow discard
  | list =>
    rcases List.mem_cons.mp hl with rfl | hl
    · have opener : ['('].all P := by simp [w.sign]
      exact List.all_append.trans (Bool.and_eq_true_iff.mpr ⟨w.name hname.1, opener⟩)
    · rcases List.mem_append.mp hl with hl | hl
      · exact w.params hparams lexeme hl
      · rw [List.mem_singleton.mp hl]
        exact w.arrow discard

theorem DefinitionLexemes.plain (h : DefinitionLexemes lexemes) : Plain lexemes :=
  plain_of_all (h.written writes_plain)

theorem Begins.unfill {P : List (List Char) → Prop} (hP : ∀ lexemes, P lexemes → Plain lexemes)
    (hf : IsFiller comment filler) (h : Begins P (p ++ (filler ++ x))) : Begins P (p ++ x) := by
  obtain ⟨gap, rest, rfl, hgap, hrest⟩ := hf.split
  rw [List.append_assoc gap] at h
  exact h.erase hP hgap hrest

/-- A clause begins exactly where its lexemes do. -/
theorem lambda?_eq_none_iff : lambda? at_ = none ↔ ¬ Begins ClauseLexemes at_.rest := by
  constructor
  · rintro h ⟨_, written, rest, ⟨name, hname, rfl⟩, hlaid, heq⟩
    obtain ⟨clause, hsome, -⟩ := lambda?_of_laid heq hname hlaid
    cases h.symm.trans hsome
  · intro h
    cases hclause : lambda? at_ with
    | none => rfl
    | some clause =>
      obtain ⟨written, hrest, hname, hlaid⟩ := lambda?_laid hclause
      exact absurd ⟨_, written, clause.body.rest, ⟨_, hname, rfl⟩, hlaid, hrest⟩ h

/-- Filler makes no clause. -/
theorem lambda?_fill_none (hat : at_.rest = p ++ x) (hat' : at_'.rest = p ++ (filler ++ x))
    (hf : IsFiller comment filler) (h : lambda? at_ = none) : lambda? at_' = none := by
  rw [lambda?_eq_none_iff, hat] at h
  rw [lambda?_eq_none_iff, hat']
  exact fun hbegins => h (hbegins.unfill (fun _ => ClauseLexemes.plain) hf)

/-- The clause is found again. -/
theorem lambda?_laid_again {clause : LambdaClause} {written rest : List Char}
    (h : lambda? at_ = some clause) (hat' : at_'.rest = written ++ rest)
    (hlaid : Laid [clause.name.toList, clauseArrow] written) :
    ∃ clause', lambda? at_' = some clause' ∧ clause'.name = clause.name ∧
      clause'.body.rest = rest := by
  obtain ⟨-, -, hname, -⟩ := lambda?_laid h
  obtain ⟨clause', hsome, hsame, hrest⟩ := lambda?_of_laid hat' hname hlaid
  exact ⟨clause', hsome, hsame.trans String.ofList_toList, hrest⟩

theorem lambda?_same (h : at_'.rest = at_.rest) :
    SameClause (fun c c' => c'.rest = c.rest) at_ at_' := by
  cases hclause : lambda? at_ with
  | none =>
    refine .none hclause ?_ h
    have blank : IsFiller false [] := .separators (by simp)
    exact lambda?_fill_none (p := []) rfl (by simpa using h) blank hclause
  | some clause =>
    obtain ⟨written, hrest, -, hlaid⟩ := lambda?_laid hclause
    obtain ⟨clause', hsome, hname, hbody⟩ := lambda?_laid_again hclause (h.trans hrest) hlaid
    exact .clause hclause hsome hname hbody

/-- A text is a definition exactly if it begins with the lexemes of a signature. -/
theorem definition?_eq_none_iff {text : List Char} :
    definition? text = none ↔ ¬ Begins DefinitionLexemes text := by
  constructor
  · rintro h ⟨_, written, rest, ⟨name, params, discard, hname, hparams, hheads⟩, hlaid, heq⟩
    obtain ⟨d, hsome, -⟩ := definition?_of_laid heq hname hparams hheads hlaid
    cases h.symm.trans hsome
  · intro h
    cases hd : definition? text with
    | none => rfl
    | some d =>
      obtain ⟨lexemes, written, heq, hname, hparams, hheads, hlaid⟩ := definition?_laid hd
      have params : ∀ n ∈ d.params.map (·.1.toList), IsName n := List.forall_mem_map.mpr hparams
      exact absurd ⟨lexemes, written, d.body.rest, ⟨_, _, _, hname, params, hheads⟩, hlaid, heq⟩ h

/-- Filler makes no definition. -/
theorem definition?_fill_none (hf : IsFiller comment filler) (h : definition? (p ++ x) = none) :
    definition? (p ++ (filler ++ x)) = none := by
  rw [definition?_eq_none_iff] at h ⊢
  exact fun hbegins => h (hbegins.unfill (fun _ => DefinitionLexemes.plain) hf)

/-- The signature is found again. -/
theorem definition?_laid_again {text text' written rest : List Char} {d : Definition}
    (h : definition? text = some d)
    (hheads : Heads d.name.toList (d.params.map (·.1.toList)) d.discard lexemes)
    (hlaid : Laid lexemes written) (htext' : text' = written ++ rest) (base base' : Nat) :
    ∃ d', definition? text' = some d' ∧ d.Twin .anywhere base base' d' ∧ d'.body.rest = rest := by
  obtain ⟨-, -, -, hname, hparams, -⟩ := definition?_laid h
  have params : ∀ n ∈ d.params.map (·.1.toList), IsName n := List.forall_mem_map.mpr hparams
  obtain ⟨d', hsome, hsame, hmap, hdiscard, hrest⟩ :=
    definition?_of_laid htext' hname params hheads hlaid
  refine ⟨d', hsome, ⟨hsame.trans String.ofList_toList, trivial, ?_, hdiscard⟩, hrest⟩
  have names : d'.params.map (·.1) = d.params.map (·.1) := by
    simpa [Function.comp_def] using hmap
  have all : List.Forall₂ Eq (d.params.map (·.1)) (d'.params.map (·.1)) := by
    rw [names]
    exact List.forall₂_same.mpr fun _ _ => rfl
  rw [List.forall₂_map_left_iff, List.forall₂_map_right_iff] at all
  exact all.imp fun _ _ heq => ⟨heq.symm, trivial⟩

end Signature

/-! ## Places between tokens -/

/-- The text goes on with `x` at a place between two of its tokens, or before the first or after the
last one. The text is what stands behind the cursor, and is read in that mode. The flag tells
whether the place is tight: right after a navigation operator, or before or inside the clause of a
streaming operator. -/
inductive Between (x : List Char) : Bool → LexMode → Cursor → Prop
  /-- Before the next token. -/
  | here {mode : LexMode} {c : Cursor} {p : List Char} : c.rest = p ++ x → Token.Skips mode p →
      Between x (decide (mode = .member)) mode c
  | operand {tight : Bool} {c after : Cursor} {kind : TokenKind} {span : Span} :
      Token.next .operand c = .ok (⟨kind, span⟩, after) → kind ≠ .finish →
      Between x tight kind.modeAfter after → Between x tight .operand c
  | member {tight call : Bool} {c after : Cursor} {name : String} {lookup : Lookup} {span : Span} :
      Token.next .member c = .ok (⟨.ident ⟨.name name, lookup, call⟩, span⟩, after) →
      Between x tight (if call then .operand else .operator) after → Between x tight .member c
  | comma {tight : Bool} {c after : Cursor} {span : Span} :
      Token.next .operator c = .ok (⟨.comma, span⟩, after) →
      Between x tight .operand after → Between x tight .operator c
  | symbol {tight : Bool} {c after : Cursor} {symbol : String} {span : Span} :
      Token.next .operator c = .ok (⟨.operator symbol, span⟩, after) → ¬ Operator.Streams symbol →
      Between x tight (Operator.modeBehind symbol) after → Between x tight .operator c
  /-- After a streaming operator that no clause follows. -/
  | stream {tight : Bool} {c after : Cursor} {symbol : String} {span : Span} :
      Token.next .operator c = .ok (⟨.operator symbol, span⟩, after) → Operator.Streams symbol →
      Signature.lambda? after = none → Between x tight .operand after → Between x tight .operator c
  /-- After a clause. -/
  | body {tight : Bool} {c after : Cursor} {symbol : String} {span : Span} {clause : LambdaClause} :
      Token.next .operator c = .ok (⟨.operator symbol, span⟩, after) → Operator.Streams symbol →
      Signature.lambda? after = some clause → Between x tight .operand clause.body →
      Between x tight .operator c
  /-- Before the name or the arrow of a clause. -/
  | clause {c after : Cursor} {symbol : String} {span : Span} {clause : LambdaClause}
      {p rest : List Char} :
      Token.next .operator c = .ok (⟨.operator symbol, span⟩, after) → Operator.Streams symbol →
      Signature.lambda? after = some clause → after.rest = p ++ x → x = rest ++ clause.body.rest →
      Signature.Inside [clause.name.toList, Signature.clauseArrow] p rest →
        Between x true .operator c

/-- The text goes on with `x` at a place between two of its tokens, or before the first or after the
last one. The places before and inside of the signature of a definition are tight, too. -/
inductive Boundary (extensions : Extensions) (text : String) (x : List Char) : Bool → Prop
  | plain {tight : Bool} : definitionOf? extensions text = none →
      Between x tight .operand (Cursor.start text.toList) → Boundary extensions text x tight
  | body {tight : Bool} {d : Definition} : definitionOf? extensions text = some d →
      Between x tight .operand d.body → Boundary extensions text x tight
  | signature {d : Definition} {p rest : List Char} {lexemes : List (List Char)} :
      definitionOf? extensions text = some d → text.toList = p ++ x → x = rest ++ d.body.rest →
      Signature.Heads d.name.toList (d.params.map (·.1.toList)) d.discard lexemes →
      Signature.Inside lexemes p rest → Boundary extensions text x true

/-! ## Two texts that differ in filler -/

section Follows

variable {at_ : LexMode → Cursor → Cursor → Prop} {after after' : Cursor} {symbol : String}

theorem followsSymbol_of_streams (h : Operator.Streams symbol)
    (hc : SameClause (at_ .operand) after after') : FollowsSymbol at_ symbol after after' := by
  obtain ⟨hcloser, op, hop⟩ := h
  unfold FollowsSymbol
  rw [hcloser, if_neg Bool.false_ne_true, hop]
  exact hc

theorem followsSymbol_of_not_streams (h : ¬ Operator.Streams symbol)
    (hat : at_ (Operator.modeBehind symbol) after after') :
    FollowsSymbol at_ symbol after after' := by
  unfold Operator.modeBehind at hat
  unfold FollowsSymbol
  split
  case isTrue hcloser => rwa [if_pos hcloser] at hat
  case isFalse hcloser =>
    rw [if_neg hcloser] at hat
    split
    case h_1 heq => simpa only [heq] using hat
    case h_2 op heq => exact absurd ⟨eq_false_of_ne_true hcloser, op, heq⟩ h
    case h_3 hnav hstream =>
      split at hat
      case h_1 heq => exact absurd heq (hnav _)
      case h_2 => exact hat

end Follows

theorem Between.suffix {tight : Bool} {mode : LexMode} {c : Cursor} (h : Between x tight mode c) :
    ∃ p, c.rest = p ++ x := by
  have before {mode : LexMode} {c after : Cursor} {token : Token}
      (hnext : Token.next mode c = .ok (token, after)) (h : ∃ p, after.rest = p ++ x) :
      ∃ p, c.rest = p ++ x := by
    obtain ⟨p, hp⟩ := h
    obtain ⟨q, hq⟩ := Token.next_suffix hnext
    exact ⟨q ++ p, by rw [← hq, hp, List.append_assoc]⟩
  induction h with
  | here hp => exact ⟨_, hp⟩
  | operand hnext _ _ ih => exact before hnext ih
  | member hnext _ ih | comma hnext _ ih => exact before hnext ih
  | symbol hnext _ _ ih => exact before hnext ih
  | stream hnext _ _ _ ih => exact before hnext ih
  | body hnext _ hclause _ ih =>
    obtain ⟨p, hp⟩ := ih
    obtain ⟨written, hw, -⟩ := Signature.lambda?_laid hclause
    exact before hnext ⟨written ++ p, by rw [hw, hp, List.append_assoc]⟩
  | clause hnext _ _ hp => exact before hnext ⟨_, hp⟩

/-- The places are before the same text, but for filler at a place between two tokens of it. Where
the filler is a comment, the place is not a tight one. -/
inductive Filled (comment : Bool) (filler : List Char) (mode : LexMode) (c c' : Cursor) : Prop
  | same : c'.rest = c.rest → Filled comment filler mode c c'
  | filled {p x : List Char} {tight : Bool} : c.rest = p ++ x → c'.rest = p ++ (filler ++ x) →
      Between x tight mode c → (comment = true → tight = false) → Filled comment filler mode c c'

variable {base base' : Nat}

/-- What follows the place of the filler is put behind a token. -/
theorem sameRead_token {mode : LexMode} {c c' after : Cursor} {kind : TokenKind} {span : Span}
    {p q : List Char} (hf : IsFiller comment filler) (hc : c.rest = p ++ x)
    (hc' : c'.rest = p ++ (filler ++ x)) (hnext : Token.next mode c = .ok (⟨kind, span⟩, after))
    (hk : kind ≠ .finish) (hq : after.rest = q ++ x) :
    SameRead .anywhere base base' (fun kind' _ _ found found' => kind' = kind ∧ found = after ∧
        found'.rest = q ++ (filler ++ x)) (Token.next mode c) (Token.next mode c') := by
  by_cases hne : filler = []
  · subst hne
    have same := @Token.next_offset base base' mode _ _ (hc'.trans hc.symm)
    rw [hnext] at same ⊢
    generalize Token.next mode c' = r' at same
    cases same with
    | token _ hrest => exact .token trivial ⟨rfl, rfl, hrest.trans hq⟩
  · obtain ⟨offset, _⟩ := c
    obtain ⟨offset', _⟩ := c'
    obtain rfl : _ = p ++ x := hc
    obtain rfl : _ = p ++ (filler ++ x) := hc'
    obtain ⟨span', after', hnext', hrest'⟩ : ∃ span' after',
        Token.next mode ⟨offset', p ++ (filler ++ x)⟩ = .ok (⟨kind, span'⟩, after') ∧
          after'.rest = q ++ (filler ++ x) :=
      Token.next_cut (fun q _ _ => (hf.stops hne x).keeps q x) hnext hk hq
    rw [hnext, hnext']
    exact .token trivial ⟨rfl, rfl, hrest'⟩

/-- At a place before a token the filler is skipped. -/
theorem sameRead_skips {mode : LexMode} {c c' : Cursor} {p : List Char}
    (hf : IsFiller comment filler) (hm : comment = true → decide (mode = .member) = false)
    (hp : Token.Skips mode p) (hc : c.rest = p ++ x) (hc' : c'.rest = p ++ (filler ++ x)) :
    SameRead .anywhere base base' Token.SameRest (Token.next mode c) (Token.next mode c') := by
  have hskips := hf.skips fun hcomment => of_decide_eq_false (hm hcomment)
  obtain ⟨offset, _⟩ := c
  obtain ⟨offset', _⟩ := c'
  obtain rfl : _ = p ++ x := hc
  obtain rfl : _ = p ++ (filler ++ x) := hc'
  rw [Token.next_skip hp, Token.next_skip hp, Token.next_skip hskips]
  exact Token.next_offset mode rfl

theorem filled_start (source : List Char) :
    Filled comment filler .operand (Cursor.start source) (Cursor.start source) := .same rfl

theorem sameContents_anywhere {at_ : List Char → Nat → Nat → Prop} (start start' : Nat)
    (raw : List Char) (h : ∀ source start start', at_ source start start') :
    SameContents .anywhere at_ start start' raw :=
  ⟨fun _ _ => trivial, fun _ _ => trivial, fun _ _ _ _ _ => trivial, fun _ _ _ _ _ => h _ _ _⟩

/-- After the operator symbol the places are again before the same text, but for the filler. -/
theorem Filled.followsSymbol_same {after after' : Cursor} (symbol : String)
    (h : after'.rest = after.rest) : FollowsSymbol (Filled comment filler) symbol after after' := by
  by_cases hs : Operator.Streams symbol
  · exact followsSymbol_of_streams hs ((Signature.lambda?_same h).mono fun _ _ => .same)
  · exact followsSymbol_of_not_streams hs (.same h)

/-- **Filler changes nothing about what is read**, except at tight places. -/
def Course.filled (hf : IsFiller comment filler) : Course .anywhere where
  at_ mode _ _ := Filled comment filler mode
  operand := by
    intro base base' c c' h
    have contents (start start' : Nat) (raw : List Char) := sameContents_anywhere start start' raw
      fun source (_ _ : Nat) => @filled_start comment filler source
    cases h with
    | same hrest =>
      exact (Token.next_offset .operand hrest).mono fun _ _ _ _ _ hafter =>
        ⟨fun _ => .same hafter, fun _ _ _ => contents _ _ _⟩
    | filled hc hc' hb ht =>
      cases hb with
      | here hp hskips =>
        obtain rfl := List.append_cancel_right (hc.symm.trans hp)
        exact (sameRead_skips hf ht hskips hc hc').mono fun _ _ _ _ _ hafter =>
          ⟨fun _ => .same hafter, fun _ _ _ => contents _ _ _⟩
      | operand hnext hk hb =>
        obtain ⟨q, hq⟩ := hb.suffix
        refine (sameRead_token hf hc hc' hnext hk hq).mono ?_
        rintro _ _ _ _ _ ⟨rfl, rfl, hrest⟩
        exact ⟨fun _ => .filled hq hrest hb ht, fun _ _ _ => contents _ _ _⟩
  operator := by
    intro base base' c c' h
    have follows {kind : TokenKind} {after after' : Cursor} (h : after'.rest = after.rest) :
        FollowsOperator (Filled comment filler) kind after after' := by
      cases kind with
      | comma => exact .same h
      | operator symbol => exact Filled.followsSymbol_same symbol h
      | _ => exact trivial
    cases h with
    | same hrest =>
      exact (Token.next_offset .operator hrest).mono fun _ _ _ _ _ hafter => follows hafter
    | filled hc hc' hb ht =>
      cases hb with
      | here hp hskips =>
        obtain rfl := List.append_cancel_right (hc.symm.trans hp)
        exact (sameRead_skips hf ht hskips hc hc').mono fun _ _ _ _ _ hafter => follows hafter
      | comma hnext hb =>
        obtain ⟨q, hq⟩ := hb.suffix
        refine (sameRead_token hf hc hc' hnext (by simp) hq).mono ?_
        rintro _ _ _ _ _ ⟨rfl, rfl, hrest⟩
        exact .filled hq hrest hb ht
      | symbol hnext hs hb =>
        obtain ⟨q, hq⟩ := hb.suffix
        refine (sameRead_token hf hc hc' hnext (by simp) hq).mono ?_
        rintro _ _ _ _ _ ⟨rfl, rfl, hrest⟩
        exact followsSymbol_of_not_streams hs (.filled hq hrest hb ht)
      | stream hnext hs hclause hb =>
        obtain ⟨q, hq⟩ := hb.suffix
        refine (sameRead_token hf hc hc' hnext (by simp) hq).mono ?_
        rintro _ _ _ _ _ ⟨rfl, rfl, hrest⟩
        exact followsSymbol_of_streams hs (.none hclause
          (Signature.lambda?_fill_none hq hrest hf hclause) (.filled hq hrest hb ht))
      | body hnext hs hclause hb =>
        obtain ⟨q, hq⟩ := hb.suffix
        obtain ⟨written, hw, -, hlaid⟩ := Signature.lambda?_laid hclause
        have hafter := hw.trans (by rw [hq, ← List.append_assoc])
        refine (sameRead_token hf hc hc' hnext (by simp) hafter).mono ?_
        rintro _ _ _ _ _ ⟨rfl, rfl, hrest⟩
        rw [List.append_assoc] at hrest
        obtain ⟨clause', hsome, hname, hbody⟩ := Signature.lambda?_laid_again hclause hrest hlaid
        exact followsSymbol_of_streams hs (.clause hclause hsome hname (.filled hq hbody hb ht))
      | clause hnext hs hclause hafter hx hinside =>
        refine (sameRead_token hf hc hc' hnext (by simp) hafter).mono ?_
        rintro _ _ _ _ _ ⟨rfl, rfl, hrest⟩
        -- The place is tight, so the filler is no comment.
        obtain rfl : comment = false := Bool.eq_false_iff.mpr fun hcomment => by cases ht hcomment
        have hlaid := hinside.fill hf.blank
        rw [hx, ← List.append_assoc filler, ← List.append_assoc] at hrest
        obtain ⟨clause', hsome, hname, hbody⟩ := Signature.lambda?_laid_again hclause hrest hlaid
        exact followsSymbol_of_streams hs (.clause hclause hsome hname (.same hbody))
  member := by
    intro base base' c c' h
    have follows {kind : TokenKind} {after after' : Cursor} (h : after'.rest = after.rest) :
        FollowsMember (Filled comment filler) kind after after' := by
      unfold FollowsMember
      split
      · exact .same h
      · exact trivial
    cases h with
    | same hrest =>
      exact (Token.next_offset .member hrest).mono fun _ _ _ _ _ hafter => follows hafter
    | filled hc hc' hb ht =>
      cases hb with
      | here hp hskips =>
        obtain rfl := List.append_cancel_right (hc.symm.trans hp)
        exact (sameRead_skips hf ht hskips hc hc').mono fun _ _ _ _ _ hafter => follows hafter
      | member hnext hb =>
        obtain ⟨q, hq⟩ := hb.suffix
        refine (sameRead_token hf hc hc' hnext (by simp) hq).mono ?_
        rintro _ _ _ _ _ ⟨rfl, rfl, hrest⟩
        exact .filled hq hrest hb ht

/-! ## Whole texts -/

/-- **Filler between tokens is insignificant.** A text into which separators or a comment are put at
a place between two of its tokens, before the first or after the last one parses as before, spans
apart, whether it succeeds or fails; at the tight places this holds of separators. -/
theorem parse_filled {text filled : String} {p : List Char} {tight : Bool}
    (hf : IsFiller comment filler) (htext : text.toList = p ++ x)
    (hfilled : filled.toList = p ++ (filler ++ x)) (offset : Nat) (scope : TemplateScope ε)
    (hb : Boundary scope.extensions text x tight) (ht : comment = true → tight = false) :
    SameOutcome .anywhere (Parsed.Twin .anywhere) (parse text offset scope)
      (parse filled offset scope) := by
  refine (Course.filled hf).parse trivial ?_
  cases hb with
  | plain hnone hb =>
    refine .inl ⟨hnone, ?_, .filled htext hfilled hb ht⟩
    rw [definitionOf?_eq_none] at hnone ⊢
    intro hnamed
    rw [hfilled]
    exact Signature.definition?_fill_none hf (htext ▸ hnone hnamed)
  | @body _ d hsome hb =>
    obtain ⟨hnamed, hd⟩ := definitionOf?_eq_some.mp hsome
    obtain ⟨q, hq⟩ := hb.suffix
    obtain ⟨lexemes, written, hw, -, -, hheads, hlaid⟩ := Signature.definition?_laid hd
    rw [hq, htext, ← List.append_assoc] at hw
    obtain rfl := List.append_cancel_right hw
    rw [List.append_assoc] at hfilled
    obtain ⟨d', hd', htwin, hrest⟩ :=
      Signature.definition?_laid_again hd hheads hlaid hfilled offset offset
    exact .inr ⟨d, d', hsome, definitionOf?_eq_some.mpr ⟨hnamed, hd'⟩, htwin,
      .filled hq hrest hb ht⟩
  | @signature d before rest lexemes hsome hbefore hx hheads hinside =>
    obtain ⟨hnamed, hd⟩ := definitionOf?_eq_some.mp hsome
    -- The place is tight, so the filler is no comment.
    obtain rfl : comment = false := Bool.eq_false_iff.mpr fun hcomment => by cases ht hcomment
    obtain rfl := List.append_cancel_right (htext.symm.trans hbefore)
    have hlaid := hinside.fill hf.blank
    rw [hx, ← List.append_assoc filler, ← List.append_assoc] at hfilled
    obtain ⟨d', hd', htwin, hrest⟩ :=
      Signature.definition?_laid_again hd hheads hlaid hfilled offset offset
    exact .inr ⟨d, d', hsome, definitionOf?_eq_some.mpr ⟨hnamed, hd'⟩, htwin, .same hrest⟩

/-- A comment behind a member name in the clause of a definition. -/
theorem parse_filled_of_comment :
    Boundary (TemplateScope.fresh : TemplateScope Nat).extensions "f(s) -> s #> x -> x.a + 1"
        " + 1".toList false ∧
      SameOutcome .anywhere (Parsed.Twin .anywhere)
        (parse "f(s) -> s #> x -> x.a + 1" 0 (TemplateScope.fresh : TemplateScope Nat))
        (parse "f(s) -> s #> x -> x.a /* sum */  + 1" 0 TemplateScope.fresh) := by
  have place : Boundary (TemplateScope.fresh : TemplateScope Nat).extensions
      "f(s) -> s #> x -> x.a + 1" " + 1".toList false := by
    refine .body rfl ?_
    refine .operand rfl (by simp) ?_
    refine .body rfl ?_ rfl ?_
    · exact ⟨rfl, _, rfl⟩
    refine .operand rfl (by simp) ?_
    refine .symbol rfl ?_ ?_
    · rintro ⟨-, op, h⟩
      cases h
    refine .member rfl ?_
    exact @Between.here _ .operator _ [] rfl fun _ _ => rfl
  have sum : ¬ "*/".toList <:+: " sum ".toList := by decide
  exact ⟨place, parse_filled (p := "f(s) -> s #> x -> x.a".toList) (.comment sum) rfl rfl _ _ place
    fun _ => rfl⟩

/-- Between a navigation operator and the member name a comment makes the text fail. -/
theorem comment_behind_navigation_fails :
    Boundary (TemplateScope.fresh : TemplateScope Nat).extensions "a.b" ['b'] true ∧
      (∃ p, (parse "a.b" 0 (TemplateScope.fresh : TemplateScope Nat)).1 = .ok p ∧
        p.node = .member (.identifier 0 .unstated) 1 false) ∧
      (parse "a. /* c */ b" 0 (TemplateScope.fresh : TemplateScope Nat)).1.map (fun _ => ()) =
        .error ⟨.lexical (.unexpectedChar '/' .member), ⟨3, 4⟩⟩ := by
  refine ⟨.plain rfl ?_, ⟨_, rfl, rfl⟩, by decide +kernel⟩
  refine .operand rfl (by simp) (.symbol rfl ?_ (@Between.here _ .member _ [] rfl fun _ _ => rfl))
  rintro ⟨-, op, h⟩
  cases h

end TagExpr
