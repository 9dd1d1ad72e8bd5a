import TagExpr.Proofs.Parse.Words
import TagExpr.Proofs.Scoping.Visits

/-!
# Reading a tree against its text

The cues of a text are its words with all that names depend on between them: the clauses of
streaming operators, and whether the word before is assigned or bound. As the words, they are read
off the tokens alone.

These are the rules of scoping: a walk over a tree keeps the scopes that it is in, and each of its
visits has to agree with the cues of the text. A bare name is read from the innermost visible slot
of that name, an assignment to a name that nothing has declared gives it a new slot, and so does the
clause of a streaming operator. Leaving a scope hides what was declared in it.
-/

namespace TagExpr

/-- A word, or what stands between words and concerns names. -/
inductive Cue where
  | word (w : Word)
  /-- `name ->` after a streaming operator. -/
  | clause (name : String)
  /-- `=` -/
  | assign
  /-- `:=` -/
  | bind
  deriving DecidableEq

/-- A bare name. -/
def Word.bare (name : String) : Word := .name .unstated name false

namespace Cue

def word? : Cue → Option Word
  | word w => some w
  | _ => none

/-- The words among the cues. -/
def words (cs : List Cue) : List Word := cs.filterMap word?

@[simp] theorem words_append (cs ds : List Cue) : words (cs ++ ds) = words cs ++ words ds :=
  List.filterMap_append

@[simp] theorem words_map_word (ws : List Word) : words (ws.map word) = ws := by
  induction ws with
  | nil => rfl
  | cons w ws ih => exact congrArg (w :: ·) ih

@[simp] theorem words_nil : words [] = [] := rfl

/-- The cues of a part of a string literal. -/
def ofSegment (nested : List Char → List Cue) : Literal.Segment → List Cue
  | .expression source _ => nested source
  | part => (Word.ofSegment (fun _ => []) part).map word

/-- The cues of a token in operand position. Only interpolated sources bring more than words. -/
def ofOperand (extensions : Extensions) (nested : List Char → List Cue) : TokenKind → List Cue
  | .str raw doubleQuoted =>
    if doubleQuoted && extensions.interpolation then
      match Literal.split raw with
      | .ok parts => parts.flatMap (ofSegment nested)
      | .error _ => []
    else
      (Word.ofString extensions (fun _ => []) raw doubleQuoted).map word
  | kind => (Word.ofOperand extensions (fun _ => []) kind).map word

/-- The cues of an operator symbol after an operand, with what it takes with it. -/
def ofOperator (symbol : String) (at_ : Cursor) : List Cue :=
  match (Operator.findInfix? symbol).map Operator.kind with
  | some .assign => [assign]
  | some .bind => [bind]
  | some (.stream _) => ((Signature.lambda? at_).map fun c => clause c.name).toList
  | _ => (operatorReach symbol at_).1.map word

theorem words_ofSegment (nested : List Char → List Cue) (part : Literal.Segment) :
    words (ofSegment nested part) = Word.ofSegment (fun source => words (nested source)) part := by
  cases part with
  | expression source place => rfl
  | text | name => exact words_map_word _

theorem words_ofParts (nested : List Char → List Cue) (parts : List Literal.Segment) :
    words (parts.flatMap (ofSegment nested)) =
      parts.flatMap (Word.ofSegment fun source => words (nested source)) := by
  induction parts with
  | nil => rfl
  | cons part parts ih =>
    rw [List.flatMap_cons, List.flatMap_cons, words_append, words_ofSegment, ih]

theorem words_ofOperand (extensions : Extensions) (nested : List Char → List Cue)
    (kind : TokenKind) :
    words (ofOperand extensions nested kind) =
      Word.ofOperand extensions (fun source => words (nested source)) kind := by
  cases kind with
  | str raw doubleQuoted =>
    simp only [ofOperand, Word.ofOperand, Word.ofString]
    split
    · cases Literal.split raw with
      | error e => rfl
      | ok parts => exact words_ofParts nested parts
    · exact words_map_word _
  | _ => exact words_map_word _

theorem words_ofOperator (symbol : String) (at_ : Cursor) :
    words (ofOperator symbol at_) = (operatorReach symbol at_).1 := by
  unfold ofOperator
  split
  case h_1 hk | h_2 hk =>
    simp only [operatorReach, hk]
    split <;> rfl
  case h_3 hk =>
    simp only [operatorReach, hk]
    cases Signature.lambda? at_ <;> split <;> rfl
  case h_4 => exact words_map_word _

end Cue

/-- The cues from a place of a text to its end, of at most `fuel` tokens. -/
def cues (extensions : Extensions) : Nat → LexMode → Cursor → List Cue
  | 0, _, _ => []
  | fuel + 1, mode, at_ =>
    match Token.next mode at_ with
    | .error _ => []
    | .ok (token, after) =>
      match mode with
      | .operand =>
        let nested (source : List Char) : List Cue :=
          cues extensions fuel .operand (Cursor.start source)
        Cue.ofOperand extensions nested token.kind ++
          cues extensions fuel token.kind.modeAfter after
      | _ =>
        match token.kind with
        | .comma => cues extensions fuel .operand after
        | .operator symbol =>
          Cue.ofOperator symbol after ++
            cues extensions fuel (operatorReach symbol after).2.1 (operatorReach symbol after).2.2
        | _ => []

theorem words_cues (extensions : Extensions) (fuel : Nat) (mode : LexMode) (at_ : Cursor) :
    Cue.words (cues extensions fuel mode at_) = words extensions fuel mode at_ := by
  induction fuel generalizing mode at_ with
  | zero => rfl
  | succ fuel ih =>
    unfold cues words
    cases Token.next mode at_ with
    | error e => rfl
    | ok next =>
      obtain ⟨⟨kind, span⟩, after⟩ := next
      cases mode with
      | operand =>
        simp only [Cue.words_append, Cue.words_ofOperand, ih]
      | operator | member =>
        cases kind with
        | comma => exact ih _ _
        | operator symbol => simp only [Cue.words_append, Cue.words_ofOperator, ih]
        | _ => rfl

/-- The cues of the expression in a text. -/
def cuesOf (extensions : Extensions) (text : String) : List Cue :=
  let at_ := bodyOf extensions text
  cues extensions (at_.rest.length + 1) .operand at_

end TagExpr

namespace TagExpr.Scoping

/-- The names declared in a scope with their slots, the latest first. -/
abbrev Scope := List (String × Nat)

/-- What is known in the middle of a walk. -/
structure Reading (ε : Type) where
  /-- The innermost scope. -/
  current : Scope
  /-- The scopes around it, innermost first. -/
  around : List Scope
  /-- The slot that is declared next. -/
  next : Nat
  /-- The scope of the file, with the template bindings. -/
  file : TemplateScope ε

variable {ε : Type} {r r' r'' : Reading ε} {v : Visit} {us vs : List Visit} {c cs ds : List Cue}
  {slot : Nat}

namespace Reading

/-- The visible locals, innermost first. -/
def visible (r : Reading ε) : Scope := r.current ++ r.around.flatten

def enter (r : Reading ε) : Reading ε :=
  { r with current := [], around := r.current :: r.around }

/-- The next slot is given to a name. -/
def declare (r : Reading ε) (name : String) : Reading ε :=
  { r with current := (name, r.next) :: r.current, next := r.next + 1 }

/-- What a bare name is: the innermost visible local of that name, else the innermost binding, else
neither. -/
def resolve (r : Reading ε) (name : String) : Visit :=
  match r.visible.lookup name with
  | some slot => .reads (.slot slot)
  | none =>
    match r.file.findBinding? name with
    | some (template, slot) => .reads (.binding template slot)
    | none => .other

theorem resolve_of_local {name : String} (h : r.visible.lookup name = some slot) :
    r.resolve name = .reads (.slot slot) := by
  simp only [resolve, h]

theorem resolve_of_binding {name : String} {template : TemplateId}
    (hlocal : r.visible.lookup name = none)
    (h : r.file.findBinding? name = some (template, slot)) :
    r.resolve name = .reads (.binding template slot) := by
  simp only [resolve, hlocal, h]

theorem resolve_of_none {name : String} (hlocal : r.visible.lookup name = none)
    (h : r.file.findBinding? name = none) : r.resolve name = .other := by
  simp only [resolve, hlocal, h]

@[simp] theorem visible_declare (r : Reading ε) (name : String) :
    (r.declare name).visible = (name, r.next) :: r.visible := rfl

end Reading

/-- A visit agrees with the next cues of the text. -/
inductive Step : Reading ε → Visit → List Cue → Reading ε → Prop
  | enter (r : Reading ε) : Step r .enter [] r.enter
  | leave {r : Reading ε} {scope : Scope} {rest : List Scope} : r.around = scope :: rest →
      Step r .leave [] { r with current := scope, around := rest }
  | clause (r : Reading ε) (name : String) :
      Step r (.clause r.next) [.clause name] (r.declare name)
  | name {r : Reading ε} {v : Visit} {name : String} : r.resolve name = v →
      Step r v [.word (.bare name)] r
  | other (r : Reading ε) {w : Word} : (∀ name, w ≠ .bare name) → Step r .other [.word w] r
  | assign {r : Reading ε} {place : Place} {name : String} : r.resolve name = .reads place →
      Step r (.assigns place) [.word (.bare name), .assign] r
  | declare {r : Reading ε} {name : String} : r.resolve name = .other →
      Step r (.assigns (.slot r.next)) [.word (.bare name), .assign] (r.declare name)
  | bind {r : Reading ε} {name : String} {template : TemplateId} {slot : Nat}
      {file : TemplateScope ε} : r.file.declareBinding name = ((template, slot), file) →
      Step r (.assigns (.binding template slot)) [.word (.bare name), .bind] { r with file }

/-- The visits of a walk agree with the cues of the text. -/
inductive Reads : Reading ε → List Visit → List Cue → Reading ε → Prop
  | nil (r : Reading ε) : Reads r [] [] r
  | cons {r r' r'' : Reading ε} {v : Visit} {vs : List Visit} {c cs : List Cue} :
      Step r v c r' → Reads r' vs cs r'' → Reads r (v :: vs) (c ++ cs) r''

namespace Reads

theorem one (h : Step r v c r') : Reads r [v] c r' := by
  rw [← List.append_nil c]
  exact .cons h (.nil r')

theorem append (h : Reads r us cs r') (h' : Reads r' vs ds r'') :
    Reads r (us ++ vs) (cs ++ ds) r'' := by
  induction h with
  | nil => exact h'
  | cons hstep _ ih =>
    rw [List.cons_append, List.append_assoc]
    exact .cons hstep (ih h')

theorem enclosed (h : Reads r.enter vs cs r') (ha : r'.around = r.enter.around) :
    Reads r (Visit.enclosed vs) cs { r' with current := r.current, around := r.around } := by
  have hleave : Reads r.enter (vs ++ [.leave]) (cs ++ [])
      { r' with current := r.current, around := r.around } := h.append (.one (.leave ha))
  rw [List.append_nil] at hleave
  exact .cons (.enter r) hleave

/-- A walk can be stopped at any visit. -/
theorem split (h : Reads r (us ++ vs) cs r'') :
    ∃ r' ds es, cs = ds ++ es ∧ Reads r us ds r' ∧ Reads r' vs es r'' := by
  induction us generalizing r cs with
  | nil => exact ⟨r, [], cs, rfl, .nil r, h⟩
  | cons u us ih =>
    cases h with
    | @cons _ r₁ _ _ _ c cs hstep hrest =>
      obtain ⟨r', ds, es, rfl, hus, hvs⟩ := ih hrest
      exact ⟨r', c ++ ds, es, (List.append_assoc ..).symm, .cons hstep hus, hvs⟩

/-- The last visit of a walk. -/
theorem last (h : Reads r (us ++ [v]) cs r'') :
    ∃ r' ds c, cs = ds ++ c ∧ Reads r us ds r' ∧ Step r' v c r'' := by
  obtain ⟨r', ds, es, rfl, hus, hv⟩ := h.split
  cases hv with
  | cons hstep hnil =>
    cases hnil
    exact ⟨r', ds, _, by rw [List.append_nil], hus, hstep⟩

end Reads

/-! ## One step -/

theorem Reading.resolve_cases (r : Reading ε) (name : String) :
    r.resolve name = .other ∨ ∃ place, r.resolve name = .reads place := by
  unfold resolve
  split
  · exact .inr ⟨_, rfl⟩
  · split
    · exact .inr ⟨_, rfl⟩
    · exact .inl rfl

/-- A step enters a scope, leaves the innermost one or stays in it. -/
theorem Step.scopes (h : Step r v c r') :
    (v = .enter ∧ r' = r.enter) ∨
    (v = .leave ∧ ∃ scope rest, r.around = scope :: rest ∧
      r' = { r with current := scope, around := rest }) ∨
    (v ≠ .enter ∧ v ≠ .leave ∧ r'.around = r.around) := by
  cases h with
  | enter => exact .inl ⟨rfl, rfl⟩
  | leave ha => exact .inr (.inl ⟨rfl, _, _, ha, rfl⟩)
  | @name _ name hr =>
    subst hr
    rcases r.resolve_cases name with h | ⟨place, h⟩ <;> rw [h] <;>
      exact .inr (.inr ⟨by simp, by simp, rfl⟩)
  | _ => exact .inr (.inr ⟨by simp, by simp, rfl⟩)

theorem Step.eq_enter (h : Step r .enter c r') : r' = r.enter := by
  rcases h.scopes with ⟨-, hr⟩ | ⟨hv, -⟩ | ⟨hv, -⟩
  · exact hr
  · cases hv
  · exact absurd rfl hv

theorem Step.eq_leave (h : Step r .leave c r') : ∃ scope rest, r.around = scope :: rest ∧
    r' = { r with current := scope, around := rest } := by
  rcases h.scopes with ⟨hv, -⟩ | ⟨-, hr⟩ | ⟨-, hv, -⟩
  · cases hv
  · exact hr
  · exact absurd rfl hv

theorem Step.resolve_of_reads {place : Place} {w : Word} (h : Step r (.reads place) [.word w] r) :
    ∃ name, w = .bare name ∧ r.resolve name = .reads place := by
  cases h with
  | name hr => exact ⟨_, rfl, hr⟩

theorem Step.resolve_of_bare {v : Visit} {name : String} (h : Step r v [.word (.bare name)] r) :
    r.resolve name = v := by
  cases h with
  | name hr => exact hr
  | other hw => exact absurd rfl (hw name)

end TagExpr.Scoping
