import TagExpr.Proofs.Token.Progress

/-!
# Lexemes between spaces

How a lexeme at the head of a text is found. The class with the longest lexeme is the one that is
longer than those listed before it and as long as those after it; a lexeme that ends where a space
or the text ends does not depend on what follows.
-/

namespace TagExpr.Token

/-! ## Filler -/

/-- No filler stands at the head of the text. -/
def Starts (text : List Char) : Prop :=
  ∀ offset, skipFiller .outside offset text = .ok ⟨offset, text⟩

theorem starts_nil : Starts [] := fun _ => rfl

theorem starts_cons {c : Char} (hs : Text.isSeparator c = false) (hc : c ≠ '/')
    (rest : List Char) : Starts (c :: rest) := by
  intro offset
  simp [skipFiller, hs, hc]

/-- Separators before a token are skipped. -/
theorem skipFiller_gap {gap text : List Char} (hgap : ∀ c ∈ gap, Text.isSeparator c)
    (hs : Starts text) (offset : Nat) :
    ∃ found, skipFiller .outside offset (gap ++ text) = .ok found ∧ found.rest = text := by
  induction gap generalizing offset with
  | nil => exact ⟨_, hs offset, rfl⟩
  | cons c gap ih =>
    have hsep : Text.isSeparator c := hgap c (by simp)
    have hslash : c ≠ '/' := by
      rintro rfl
      cases hsep
    obtain ⟨found, hf, hrest⟩ := ih (fun c hc => hgap c (by simp [hc])) (offset + 1)
    exact ⟨found, by simpa [skipFiller, hslash, hsep] using hf, hrest⟩

theorem next_gap {mode : LexMode} (hm : mode ≠ .member) {at_ : Cursor} {gap text : List Char}
    (hat : at_.rest = gap ++ text) (hgap : ∀ c ∈ gap, Text.isSeparator c) (hs : Starts text) :
    ∃ found, next mode at_ = read mode found ∧ found.rest = text := by
  obtain ⟨found, hf, hrest⟩ := skipFiller_gap hgap hs at_.offset
  refine ⟨found, ?_, hrest⟩
  have hskip : skip mode at_ = .ok found := by
    unfold skip
    split
    · exact absurd rfl hm
    · rw [hat, hf]
  simp [next, hskip, bind, Except.bind]

/-! ## The longest lexeme -/

theorem better_longest {text : List Char} {classes : List OperandClass} {cls : OperandClass}
    {n : Nat} (h : ∀ other ∈ classes, other.length text ≤ n) :
    classes.foldl (better text) (some (cls, n)) = some (cls, n) := by
  induction classes with
  | nil => rfl
  | cons other classes ih =>
    have hle : ¬ n < other.length text := Nat.not_lt.mpr (h other (by simp))
    simpa [better, hle] using ih fun c hc => h c (by simp [hc])

/-- The class that is found is longer than those before it and as long as those after it. -/
theorem longestClass?_eq {text : List Char} {cls : OperandClass} (before after : List OperandClass)
    {n : Nat} (hall : OperandClass.all = before ++ cls :: after) (hpos : 0 < n)
    (hn : cls.length text = n) (hbefore : ∀ other ∈ before, other.length text < n)
    (hafter : ∀ other ∈ after, other.length text ≤ n) :
    longestClass? text = some (cls, n) := by
  have hshort := better_length (P := (· < n)) (fun cls hc _ => hbefore cls hc) none
    (by simp)
  have hstep : better text (before.foldl (better text) none) cls = some (cls, n) := by
    unfold better
    split
    case h_1 _ other longest heq =>
      have hlt : longest < n := hshort (other, longest) heq
      simp [hn, hlt]
    case h_2 => simp [hn, hpos]
  rw [longestClass?_fold, hall, List.foldl_append, List.foldl_cons, hstep]
  exact better_longest hafter

/-! ## Where a lexeme ends -/

/-- The text is at its end or goes on with a space. -/
def Breaks (text : List Char) : Prop := ∀ c ∈ text.head?, c = ' '

theorem breaks_nil : Breaks [] := by simp [Breaks]

theorem breaks_space (rest : List Char) : Breaks (' ' :: rest) := by simp [Breaks]

theorem takeWhile_run {p : Char → Bool} {run after : List Char} (hrun : ∀ c ∈ run, p c)
    (hafter : ∀ c ∈ after.head?, p c = false) : (run ++ after).takeWhile p = run := by
  rw [List.takeWhile_append_of_pos hrun]
  cases after with
  | nil => simp
  | cons c rest => simp [hafter c rfl]

/-! ## Symbols -/

theorem symbolLength_of_not_prefix {symbols : List String} {text : List Char}
    (h : ∀ s ∈ symbols, s.toList.isPrefixOf text = false) : symbolLength symbols text = 0 := by
  induction symbols with
  | nil => rfl
  | cons s symbols ih =>
    rw [symbolLength, List.foldl_cons, h s (by simp), if_neg Bool.false_ne_true]
    exact ih fun s hs => h s (by simp [hs])

/-- No symbol stands at the head of a text whose first character begins none. -/
theorem symbolLength_of_head {p : Char → Bool} {symbols : List String}
    (hs : symbols.all fun s => s.toList.head?.any (!p ·)) {c : Char} (hc : p c)
    (rest : List Char) : symbolLength symbols (c :: rest) = 0 := by
  refine symbolLength_of_not_prefix fun s hmem => ?_
  have hhead := List.all_eq_true.mp hs s hmem
  cases hl : s.toList with
  | nil => simp [hl] at hhead
  | cons x more =>
    have hne : x ≠ c := by
      rintro rfl
      simp [hl, hc] at hhead
    simp [List.isPrefixOf, hne]

namespace OperandClass

/-! The classes in the order in which they are preferred. -/

def keywords : List OperandClass := [null, bool true, bool false]

def numbers : List OperandClass := [int, hexInt, double]

def quotes : List OperandClass := [doubleQuoted, singleQuoted, regex]

def marks : List OperandClass := [path, annotated, emptyMap, symbol, comma]

theorem all_eq : all = (keywords ++ numbers ++ quotes) ++ ident :: marks := rfl

end OperandClass

/-- Words and numbers begin like no quoted literal and no mark. -/
theorem length_of_namePart {c : Char} (hc : isNamePart c) (rest : List Char) :
    ∀ cls ∈ OperandClass.quotes ++ OperandClass.marks, cls.length (c :: rest) = 0 := by
  have hne {x : Char} (hx : isNamePart x = false) : c ≠ x := by
    rintro rfl
    cases hc.symm.trans hx
  have hregex : regexExtent? (c :: rest) = none := by
    unfold regexExtent?
    split
    case h_1 heq => exact absurd (List.cons.inj heq).1 (hne (by decide))
    case h_2 => rfl
  have hpath : pathLength (c :: rest) = 0 := by
    unfold pathLength
    split
    case h_1 heq => exact absurd (List.cons.inj heq).1 (hne (by decide))
    case h_2 heq => exact absurd (List.cons.inj heq).1 (hne (by decide))
    case h_3 => rfl
  have hannotated : OperandClass.annotated.length (c :: rest) = 0 := by
    simp only [OperandClass.length]
    split
    case h_1 heq => exact absurd (List.cons.inj heq).1 (hne (by decide))
    case h_2 => rfl
  have hdouble : c ≠ '"' := hne (by decide)
  have hsingle : c ≠ '\'' := hne (by decide)
  simp only [OperandClass.quotes, OperandClass.marks, List.cons_append, List.nil_append,
    List.forall_mem_cons]
  refine ⟨?_, ?_, ?_, hpath, hannotated, ?_, ?_, ?_, by simp⟩
  · simp [OperandClass.length, stringExtent?, hdouble, closedLength]
  · simp [OperandClass.length, stringExtent?, hsingle, closedLength]
  · simp [OperandClass.length, hregex, closedLength]
  · exact symbolLength_of_head (p := isNamePart) (by decide) hc rest
  · simp only [OperandClass.length, hregex, Option.isSome_none, Bool.false_eq_true, if_false]
    exact symbolLength_of_head (p := isNamePart) (by decide) hc rest
  · exact symbolLength_of_head (p := isNamePart) (by decide) hc rest

/-! ## Words -/

theorem isNamePart_of_isNameStart {c : Char} (h : isNameStart c) : isNamePart c := by
  simp only [isNameStart, isNamePart, Char.isAlphanum, Bool.or_eq_true] at h ⊢
  rcases h with h | h
  · exact .inl (.inl h)
  · exact .inr h

theorem isDigit_of_isNameStart {c : Char} (h : isNameStart c) : c.isDigit = false := by
  -- Every letter, and the underscore, stands beyond the last digit.
  have hbeyond : '9'.val < c.val := by
    rcases Bool.or_eq_true_iff.mp h with halpha | hunderscore
    · rcases Bool.or_eq_true_iff.mp halpha with hupper | hlower
      · exact UInt32.lt_of_lt_of_le (by decide) (of_decide_eq_true hupper).1
      · exact UInt32.lt_of_lt_of_le (by decide)
          (of_decide_eq_true (Bool.and_eq_true_iff.mp hlower).1)
    · rw [beq_iff_eq.mp hunderscore]
      decide
  apply Bool.eq_false_iff.mpr
  intro hdigit
  exact UInt32.not_le.mpr hbeyond (of_decide_eq_true (Bool.and_eq_true_iff.mp hdigit).2)

theorem isNamePart_of_isDigit {c : Char} (h : c.isDigit) : isNamePart c := by
  simp [isNamePart, Char.isAlphanum, h]

theorem isNameStart_of_isDigit {c : Char} (h : c.isDigit) : isNameStart c = false := by
  cases hs : isNameStart c with
  | false => rfl
  | true => cases h.symm.trans (isDigit_of_isNameStart hs)

theorem isSeparator_of_isNamePart {c : Char} (h : isNamePart c) : Text.isSeparator c = false := by
  cases hs : Text.isSeparator c with
  | false => rfl
  | true =>
    simp only [Text.isSeparator, Bool.or_eq_true, beq_iff_eq] at hs
    rcases hs with (((rfl | rfl) | rfl) | rfl) | rfl <;> cases h

theorem starts_of_isNamePart {c : Char} (h : isNamePart c) (rest : List Char) :
    Starts (c :: rest) := by
  have hslash : c ≠ '/' := by
    rintro rfl
    cases h
  exact starts_cons (isSeparator_of_isNamePart h) hslash rest

theorem lookupMarks_of_namePart {c : Char} (h : isNamePart c) (rest : List Char) :
    lookupMarks (c :: rest) = (.unstated, 0) := by
  have hne {x : Char} (hx : isNamePart x = false) : c ≠ x := by
    rintro rfl
    cases h.symm.trans hx
  unfold lookupMarks
  split
  case h_1 heq => exact absurd (List.cons.inj heq).1 (hne (by decide))
  case h_2 heq => exact absurd (List.cons.inj heq).1 (hne (by decide))
  case h_3 heq => exact absurd (List.cons.inj heq).1 (hne (by decide))
  case h_4 =>
    have hascents : ascents (c :: rest) = 0 := by
      unfold ascents
      split
      case h_1 heq => exact absurd (List.cons.inj heq).1 (hne (by decide))
      case h_2 => rfl
    simp only [hascents]

/-- Only the classes of numbers have lexemes that begin with a digit. -/
theorem length_of_isDigit {c : Char} (h : c.isDigit) (rest : List Char) :
    ∀ cls ∈ OperandClass.keywords ++ (OperandClass.quotes ++ .ident :: OperandClass.marks),
      cls.length (c :: rest) = 0 := by
  have hpart := isNamePart_of_isDigit h
  have hother := length_of_namePart hpart rest
  have hcallable : callableLength (c :: rest) = 0 := by
    simp [callableLength, nameLength, isNameStart_of_isDigit h]
  have hident : identLength (c :: rest) = 0 := by
    simp only [identLength, lookupMarks_of_namePart hpart, List.drop_zero]
    split
    case h_1 heq =>
      rw [(List.cons.inj heq).1] at h
      cases h
    case h_2 => rw [hcallable, if_pos rfl]
  have hkeyword {keyword : String}
      (hs : [keyword].all fun s => s.toList.head?.any (!·.isDigit)) :
      symbolLength [keyword] (c :: rest) = 0 :=
    symbolLength_of_head (p := Char.isDigit) hs h rest
  simp only [List.forall_mem_append, List.forall_mem_cons, OperandClass.keywords] at hother ⊢
  exact ⟨⟨hkeyword (by decide), hkeyword (by decide), hkeyword (by decide), by simp⟩, hother.1,
    hident, hother.2⟩

/-! ## One token -/

/-- A lexeme of a class is made the token of the class. -/
theorem read_of_class {at_ : Cursor} {lexeme after : List Char} {cls : OperandClass}
    {kind : TokenKind} (hat : at_.rest = lexeme ++ after) (hne : lexeme ≠ [])
    (hclass : longestClass? (lexeme ++ after) = some (cls, lexeme.length))
    (hkind : cls.token lexeme = .ok kind) :
    ∃ span at', read .operand at_ = .ok (⟨kind, span⟩, at') ∧ at'.rest = after := by
  refine ⟨spanOf at_ lexeme.length, at_.advance lexeme.length, ?_, by simp [Cursor.advance, hat]⟩
  have hcons : at_.rest ≠ [] := by simp [hat, hne]
  rw [read]
  split
  case h_1 heq => exact absurd heq hcons
  case h_2 =>
    simp only [hat, hclass, List.take_left', hkind]
    rfl

theorem next_of_class {at_ : Cursor} {gap lexeme after : List Char} {cls : OperandClass}
    {kind : TokenKind} (hat : at_.rest = gap ++ (lexeme ++ after))
    (hgap : ∀ c ∈ gap, Text.isSeparator c) (hs : Starts (lexeme ++ after)) (hne : lexeme ≠ [])
    (hclass : longestClass? (lexeme ++ after) = some (cls, lexeme.length))
    (hkind : cls.token lexeme = .ok kind) :
    ∃ span at', next .operand at_ = .ok (⟨kind, span⟩, at') ∧ at'.rest = after := by
  obtain ⟨found, hnext, hrest⟩ := next_gap (show LexMode.operand ≠ .member by simp) hat hgap hs
  rw [hnext]
  exact read_of_class hrest hne hclass hkind

/-- After an operand a symbol other than the comma is made an operator. -/
theorem next_of_symbol {at_ : Cursor} {gap after : List Char} {symbol : String}
    (hat : at_.rest = gap ++ (symbol.toList ++ after)) (hgap : ∀ c ∈ gap, Text.isSeparator c)
    (hs : Starts (symbol.toList ++ after)) (hne : symbol.toList ≠ [])
    (hlength : symbolLength operatorSymbols (symbol.toList ++ after) = symbol.toList.length) :
    ∃ span at', next .operator at_ =
        .ok (⟨if symbol = "," then .comma else .operator symbol, span⟩, at') ∧
      at'.rest = after := by
  obtain ⟨found, hnext, hrest⟩ := next_gap (show LexMode.operator ≠ .member by simp) hat hgap hs
  refine ⟨spanOf found symbol.toList.length, found.advance symbol.toList.length, ?_, ?_⟩
  · have hcons : found.rest ≠ [] := by simp [hrest, hne]
    rw [hnext, read]
    split
    case h_1 heq => exact absurd heq hcons
    case h_2 =>
      simp only [hrest, hlength]
      split
      case h_1 heq => exact absurd (List.length_eq_zero_iff.mp heq) hne
      case h_2 => simp only [List.take_left, String.ofList_toList, take]
  · simp [Cursor.advance, hrest]

theorem read_end (mode : LexMode) {at_ : Cursor} (h : at_.rest = []) :
    ∃ span after, read mode at_ = .ok (⟨.finish, span⟩, after) := by
  rw [read, h]
  exact ⟨_, _, rfl⟩

end TagExpr.Token
