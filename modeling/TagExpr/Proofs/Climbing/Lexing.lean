import TagExpr.Proofs.Climbing.Chain
import TagExpr.Proofs.Token.Integers

/-!
# The tokens of a chain

Each lexeme of a chain is read as the token it was written for, since it ends at a space or at the
end of the text.
-/

namespace TagExpr.Climbing

open Token

namespace Name

variable (n : Name)

theorem isName_lexeme : Signature.IsName n.lexeme := by
  have hparts : n.rest.takeWhile isNamePart = n.rest := by
    have run := takeWhile_run n.parts (show ∀ c ∈ [].head?, isNamePart c = false by simp)
    rwa [List.append_nil] at run
  refine ⟨by simp [lexeme], ?_⟩
  rw [lexeme, nameLength, if_pos n.starts, hparts, List.length_cons, Nat.add_comm]

theorem nameEnds_of_breaks {after : List Char} (hb : Breaks after) : NameEnds false after := by
  refine fun _ => ⟨fun c hc => ?_, fun hparen => ?_⟩
  · rw [hb c hc]
    rfl
  · cases hb '(' hparen

end Name

namespace Numeral

variable (n : Numeral) {after : List Char}

theorem lexeme_eq : n.lexeme = literalOf n.radix n.digits n.suffix.toList := List.append_assoc _ _ _

theorem isInteger : IsInteger n.radix n.digits n.suffix.toList where
  nonempty := n.nonempty
  digital := n.digital
  suffixed := by
    cases hs : n.suffix with
    | none => exact .inl rfl
    | some x => rcases n.suffixed x (by simp [hs]) with rfl | rfl <;> simp

theorem numberEnds_of_breaks (hb : Breaks after) : NumberEnds after := by
  rintro c more rfl
  obtain rfl : c = ' ' := hb c rfl
  exact ⟨rfl, nofun⟩

/-- The value is that of the digits, without the suffix. -/
theorem token_lexeme : (integerClass n.radix).token n.lexeme = .ok (.int n.value) := by
  rw [n.lexeme_eq, n.isInteger.token_eq, integerOf, if_pos n.fits]
  rfl

/-- An integer between spaces is read as one. -/
theorem longestClass?_lexeme (hb : Breaks after) :
    longestClass? (n.lexeme ++ after) = some (integerClass n.radix, n.lexeme.length) := by
  rw [n.lexeme_eq]
  exact n.isInteger.longestClass?_eq (numberEnds_of_breaks hb)

theorem head_lexeme : ∃ first more, n.lexeme = first :: more ∧ first.isDigit := by
  have hhead := n.isInteger.head_literal []
  rwa [List.append_nil, ← n.lexeme_eq] at hhead

end Numeral

/-! ## Tokens -/

/-- The token that an operand is written for. -/
def Atom.token : Atom → TokenKind
  | name n => .ident { kind := .name (String.ofList n.lexeme) }
  | numeral n => .int n.value

variable {at_ : Cursor} {gap after : List Char}

theorem next_atom (a : Atom) (hat : at_.rest = gap ++ (a.lexeme ++ after))
    (hgap : ∀ c ∈ gap, Text.isSeparator c) (hb : Breaks after) :
    ∃ span at', next .operand at_ = .ok (⟨a.token, span⟩, at') ∧ at'.rest = after := by
  cases a with
  | name n =>
    have hs : Starts (n.lexeme ++ after) :=
      starts_of_isNamePart (isNamePart_of_isNameStart n.starts) _
    obtain ⟨found, hnext, hfound⟩ := next_gap (show LexMode.operand ≠ .member by simp) hat hgap hs
    rw [hnext]
    exact read_name .none n.isName_lexeme (Name.nameEnds_of_breaks hb) (fun _ _ => n.plain) hfound
  | numeral n =>
    obtain ⟨first, more, hfirst, hdigit⟩ := n.head_lexeme
    have hne : n.lexeme ≠ [] := by simp [hfirst]
    have hs : Starts (n.lexeme ++ after) := by
      rw [hfirst]
      exact starts_of_isNamePart (isNamePart_of_isDigit hdigit) _
    exact next_of_class hat hgap hs hne (n.longestClass?_lexeme hb) n.token_lexeme

theorem next_unary (op : UnaryOp) {rest : List Char}
    (hat : at_.rest = gap ++ (op.symbol.toList ++ ' ' :: rest))
    (hgap : ∀ c ∈ gap, Text.isSeparator c) :
    ∃ span at', next .operand at_ = .ok (⟨.operator op.symbol, span⟩, at') ∧
      at'.rest = ' ' :: rest := by
  have hclass : longestClass? (op.symbol.toList ++ ' ' :: rest) =
      some (.symbol, op.symbol.toList.length) := by
    cases op <;> rfl
  have hs : Starts (op.symbol.toList ++ ' ' :: rest) := by
    intro offset
    cases op <;> rfl
  have hne : op.symbol.toList ≠ [] := by cases op <;> simp [UnaryOp.symbol]
  refine next_of_class hat hgap hs hne hclass ?_
  simp [OperandClass.token]

theorem next_binary (op : BinaryOp) {rest : List Char}
    (hat : at_.rest = gap ++ (op.symbol.toList ++ ' ' :: rest))
    (hgap : ∀ c ∈ gap, Text.isSeparator c) :
    ∃ span at', next .operator at_ = .ok (⟨.operator op.symbol, span⟩, at') ∧
      at'.rest = ' ' :: rest := by
  have hs : Starts (op.symbol.toList ++ ' ' :: rest) := by
    intro offset
    cases op <;> rfl
  have hlength : symbolLength operatorSymbols (op.symbol.toList ++ ' ' :: rest) =
      op.symbol.toList.length := by
    cases op <;> rfl
  have hne : op.symbol.toList ≠ [] := by cases op <;> simp [BinaryOp.symbol]
  have hcomma : op.symbol ≠ "," := by cases op <;> simp [BinaryOp.symbol]
  simpa only [if_neg hcomma] using next_of_symbol hat hgap hs hne hlength

theorem next_end (hat : at_.rest = []) :
    ∃ span at', next .operator at_ = .ok (⟨.finish, span⟩, at') := by
  have hgap : at_.rest = [] ++ [] := hat
  obtain ⟨found, hnext, hrest⟩ := next_gap (show LexMode.operator ≠ .member by simp) hgap (by simp)
    starts_nil
  rw [hnext]
  exact read_end .operator hrest

/-! ## The text of a chain -/

/-- An operand with the operators in front of it. -/
def termChars : List UnaryOp → Atom → List Char
  | [], atom => atom.lexeme
  | op :: prefixes, atom => op.symbol.toList ++ ' ' :: termChars prefixes atom

/-- What follows an operand. -/
def tailChars : Tail → List Char
  | [] => []
  | (op, term) :: tail =>
    ' ' :: (op.symbol.toList ++ ' ' :: (termChars term.prefixes term.atom ++ tailChars tail))

theorem breaks_tailChars (tail : Tail) : Breaks (tailChars tail) := by
  cases tail with
  | nil => exact breaks_nil
  | cons next tail => exact breaks_space _

/-- Every lexeme with a space before it. -/
def spaced (lexemes : List String) : List Char := lexemes.flatMap fun s => ' ' :: s.toList

theorem breaks_spaced (lexemes : List String) : Breaks (spaced lexemes) := by
  cases lexemes with
  | nil => exact breaks_nil
  | cons l lexemes => exact breaks_space _

theorem cons_intercalate {lexemes : List String} (hne : lexemes ≠ []) :
    ' ' :: (" ".intercalate lexemes).toList = spaced lexemes := by
  rw [String.toList_intercalate]
  show ' ' :: [' '].intercalate _ = _
  induction lexemes with
  | nil => exact absurd rfl hne
  | cons s lexemes ih =>
    cases lexemes with
    | nil => simp [spaced]
    | cons next lexemes =>
      have hrest := ih (by simp)
      rw [List.map_cons, List.map_cons, List.intercalate_cons_cons, ← List.map_cons,
        List.append_assoc, List.singleton_append, hrest]
      simp [spaced]

theorem spaced_lexemes (prefixes : List UnaryOp) (atom : Atom) :
    spaced (Term.lexemes ⟨prefixes, atom⟩) = ' ' :: termChars prefixes atom := by
  induction prefixes with
  | nil => simp [Term.lexemes, spaced, termChars]
  | cons op prefixes ih =>
    simp only [Term.lexemes, List.map_cons, List.cons_append, spaced, List.flatMap_cons] at ih ⊢
    rw [ih, termChars]

theorem spaced_tail (tail : Tail) :
    spaced (tail.flatMap fun (op, term) => op.symbol :: term.lexemes) = tailChars tail := by
  induction tail with
  | nil => rfl
  | cons next tail ih =>
    obtain ⟨op, term⟩ := next
    have hterm := spaced_lexemes term.prefixes term.atom
    simp only [spaced, List.flatMap_cons, List.flatMap_append] at ih hterm ⊢
    rw [ih, hterm, tailChars]
    simp

theorem toList_text (c : Chain) :
    c.text.toList = termChars c.head.prefixes c.head.atom ++ tailChars c.tail := by
  have hne : c.lexemes ≠ [] := by simp [Chain.lexemes, Term.lexemes]
  have hspaced : spaced c.lexemes =
      ' ' :: (termChars c.head.prefixes c.head.atom ++ tailChars c.tail) := by
    have hhead := spaced_lexemes c.head.prefixes c.head.atom
    rw [← spaced_tail]
    simp only [spaced, Chain.lexemes, List.flatMap_append] at hhead ⊢
    rw [hhead, List.cons_append]
  exact (List.cons.inj ((cons_intercalate hne).trans hspaced)).2

theorem definition?_of_name? {text : List Char}
    (h : Signature.name? (Signature.skipSeparators (Cursor.start text)) = none) :
    Signature.definition? text = none := by
  rw [Signature.definition?, h]
  rfl

/-- No parameters and no arrow stand after an operand. -/
theorem no_arrow {lexemes : List String} (hat : at_.rest = spaced lexemes)
    (hhead : ∀ l ∈ lexemes.head?, l = "?" ∨ ∃ op : BinaryOp, l = op.symbol) :
    Signature.params? at_ = some ([], at_) ∧
      ∀ rest, (Signature.skipSeparators at_).rest ≠ '-' :: '>' :: rest ∧
        (Signature.skipSeparators at_).rest ≠ '=' :: '>' :: rest := by
  obtain ⟨offset, text⟩ := at_
  subst hat
  cases lexemes with
  | nil => exact ⟨rfl, fun rest => ⟨nofun, nofun⟩⟩
  | cons l lexemes =>
    refine ⟨rfl, fun rest => ?_⟩
    rcases hhead l rfl with rfl | ⟨op, rfl⟩
    · exact ⟨nofun, nofun⟩
    · cases lexemes <;> cases op <;> exact ⟨nofun, nofun⟩

/-- A text is no definition if an operator follows its first operand. -/
theorem definition?_atom (a : Atom) {lexemes : List String}
    (hhead : ∀ l ∈ lexemes.head?, l = "?" ∨ ∃ op : BinaryOp, l = op.symbol) :
    Signature.definition? (a.lexeme ++ spaced lexemes) = none := by
  cases a with
  | name n =>
    have hskip : (Signature.skipSeparators (Cursor.start (n.lexeme ++ spaced lexemes))).rest =
        n.lexeme ++ spaced lexemes :=
      Signature.skipSeparators_gap (List.nil_append _).symm (by simp) (n.isName_lexeme.sharp _)
    obtain ⟨span, after, hname, hafter⟩ := Signature.name?_of_isName n.isName_lexeme hskip
      (Name.nameEnds_of_breaks (breaks_spaced lexemes) rfl).1
    obtain ⟨hparams, harrow⟩ := no_arrow hafter hhead
    simp only [Atom.lexeme, Signature.definition?, hname, hparams, bind, Option.bind]
    split
    · rfl
    · split
      case h_1 rest heq => exact absurd heq (harrow rest).1
      case h_2 rest heq => exact absurd heq (harrow rest).2
      case h_3 => rfl
  | numeral n =>
    obtain ⟨first, more, hfirst, hdigit⟩ := n.head_lexeme
    have hsep := isSeparator_of_isNamePart (isNamePart_of_isDigit hdigit)
    refine definition?_of_name? ?_
    simp [Atom.lexeme, hfirst, Signature.name?, Signature.skipSeparators, Cursor.skipWhile,
      Cursor.start, hsep, nameLength, isNameStart_of_isDigit hdigit]

/-- A chain is no definition: no arrow follows its first name. -/
theorem definition?_text (c : Chain) : Signature.definition? c.text.toList = none := by
  rw [toList_text]
  cases c.head.prefixes with
  | cons op prefixes =>
    refine definition?_of_name? ?_
    rw [termChars]
    cases op <;> rfl
  | nil =>
    rw [termChars, ← spaced_tail]
    refine definition?_atom c.head.atom ?_
    cases c.tail with
    | nil => simp
    | cons next tail =>
      intro l hl
      cases hl
      exact .inr ⟨next.1, rfl⟩

end TagExpr.Climbing
