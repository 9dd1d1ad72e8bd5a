import TagExpr.Proofs.Token.Gaps

/-!
# What lexemes are written with

Words, numbers and paths are written with letters, digits and a few signs (`isLetter`), symbols are
those of the operator table, and string and pattern literals stand between their quotes or slashes
(`read_written`). So no token is blank, and braces and quotes are part of no other ones.
-/

namespace TagExpr

/-- The token is neither a symbol nor a literal between quotes or slashes. -/
def TokenKind.isWord : TokenKind → Bool
  | .operator _ | .str _ _ | .regex _ => false
  | _ => true

namespace Token

/-- The characters of words, numbers and paths. -/
def isLetter (c : Char) : Bool :=
  isNamePart c || ['.', '/', '\\', '@', '(', '+', '-', '[', ':', ']', ','].contains c

/-- The first `count` characters of the text are of that kind. -/
def MadeOf (P : Char → Bool) (text : List Char) (count : Nat) : Prop := ∀ c ∈ text.take count, P c

/-- The first `count` characters of the text are letters. -/
abbrev Lettered : List Char → Nat → Prop := MadeOf isLetter

section MadeOf

variable {P Q : Char → Bool} {text rest : List Char} {c : Char} {count more : Nat}

theorem madeOf_zero (text : List Char) : MadeOf P text 0 := by simp [MadeOf]

theorem MadeOf.mono (h : MadeOf P text count) (hpq : ∀ c, P c → Q c) : MadeOf Q text count :=
  fun c hc => hpq c (h c hc)

theorem MadeOf.add (h : MadeOf P text count) (h' : MadeOf P (text.drop count) more) :
    MadeOf P text (count + more) := by
  intro c hc
  rw [List.take_add, List.mem_append] at hc
  exact hc.elim (h c) (h' c)

theorem MadeOf.cons (hc : P c) (h : MadeOf P rest count) : MadeOf P (c :: rest) (1 + count) := by
  intro d hd
  rw [Nat.add_comm, List.take_succ_cons, List.mem_cons] at hd
  rcases hd with rfl | hd
  · exact hc
  · exact h d hd

/-- A part that is read only where another one is not missing. -/
theorem MadeOf.needs (other : Nat) (h : MadeOf P text count) :
    MadeOf P text (if other = 0 then 0 else count) := by
  split
  · exact madeOf_zero text
  · exact h

theorem madeOf_takeWhile {p : Char → Bool} (hp : ∀ c, p c → P c) (text : List Char) :
    MadeOf P text (text.takeWhile p).length := by
  intro c hc
  rw [← List.prefix_iff_eq_take.mp (List.takeWhile_prefix p)] at hc
  exact hp c (List.all_eq_true.mp List.all_takeWhile c hc)

theorem madeOf_suffix {letters : List Char} (h : letters.all P) (text : List Char) :
    MadeOf P text (suffixLength letters text) := by
  cases text with
  | nil => exact madeOf_zero []
  | cons c rest =>
    rw [suffixLength]
    split
    case isTrue hc =>
      have hP : P c := List.all_eq_true.mp h c (by simpa using hc)
      exact (madeOf_zero rest).cons hP
    case isFalse => exact madeOf_zero _

end MadeOf

/-! ## Numbers and words -/

theorem isLetter_of_isNamePart {c : Char} (h : isNamePart c) : isLetter c := by simp [isLetter, h]

/-- Words are written with the letters and digits of ASCII and the underscore. -/
theorem isNamePart_iff {c : Char} : isNamePart c ↔
    ((('A'.val ≤ c.val ∧ c.val ≤ 'Z'.val) ∨ 'a'.val ≤ c.val ∧ c.val ≤ 'z'.val) ∨ c.isDigit) ∨
      c = '_' := by
  have upper : c.isUpper ↔ 'A'.val ≤ c.val ∧ c.val ≤ 'Z'.val := decide_eq_true_iff
  have lower : c.isLower ↔ 'a'.val ≤ c.val ∧ c.val ≤ 'z'.val :=
    Bool.and_eq_true_iff.trans (and_congr decide_eq_true_iff decide_eq_true_iff)
  have letter : c.isAlpha ↔ c.isUpper ∨ c.isLower := Bool.or_eq_true_iff
  rw [isNamePart, Bool.or_eq_true, Char.isAlphanum, Bool.or_eq_true, letter, upper, lower,
    beq_iff_eq]

theorem isNamePart_of_isHexDigit {c : Char} (h : isHexDigit c) : isNamePart c := by
  simp only [isHexDigit, Bool.or_eq_true, Bool.and_eq_true, decide_eq_true_eq] at h
  refine isNamePart_iff.mpr (.inl ?_)
  rcases h with (hdigit | ⟨hlo, hhi⟩) | ⟨hlo, hhi⟩
  · exact .inr hdigit
  · exact .inl (.inr ⟨hlo, UInt32.le_trans hhi (by decide)⟩)
  · exact .inl (.inl ⟨hlo, UInt32.le_trans hhi (by decide)⟩)

theorem parts_digits (text : List Char) : MadeOf isNamePart text (digitsLength text) :=
  madeOf_takeWhile (fun _ => isNamePart_of_isDigit) text

theorem lettered_digits (text : List Char) : Lettered text (digitsLength text) :=
  (parts_digits text).mono fun _ => isLetter_of_isNamePart

theorem parts_name (text : List Char) : MadeOf isNamePart text (nameLength text) := by
  cases text with
  | nil => exact madeOf_zero []
  | cons c rest =>
    rw [nameLength]
    split
    case isTrue hc =>
      exact MadeOf.cons (isNamePart_of_isNameStart hc) (madeOf_takeWhile (fun _ h => h) rest)
    case isFalse => exact madeOf_zero _

theorem lettered_callable (text : List Char) : Lettered text (callableLength text) := by
  rw [callableLength_eq]
  have hname : Lettered text (nameLength text) :=
    (parts_name text).mono fun _ => isLetter_of_isNamePart
  exact (hname.add (madeOf_suffix (by decide) _)).needs _

theorem parts_int (text : List Char) : MadeOf isNamePart text (intLength text) :=
  ((parts_digits text).add (madeOf_suffix (by decide) _)).needs _

theorem parts_hex (text : List Char) : MadeOf isNamePart text (hexLength text) := by
  fun_cases hexLength text with
  | case1 | case3 | case4 => exact madeOf_zero _
  | case2 mark rest hmark digits _ =>
    have hpart : isNamePart mark := by rcases hmark with rfl | rfl <;> decide
    have hdigits : MadeOf isNamePart rest digits :=
      madeOf_takeWhile (fun _ => isNamePart_of_isHexDigit) rest
    have hsuffix : ['l', 'L'].all isNamePart := by decide
    have hwhole := ((hdigits.add (madeOf_suffix hsuffix _)).cons hpart).cons (c := '0')
      (by decide)
    rwa [← Nat.add_assoc, ← Nat.add_assoc] at hwhole

theorem lettered_exponent (text : List Char) : Lettered text (exponentLength text) := by
  cases text with
  | nil => exact madeOf_zero []
  | cons c rest =>
    rw [exponentLength]
    split
    case isTrue hc =>
      have hletter : isLetter c := by rcases hc with rfl | rfl <;> decide
      have hsigns : ['+', '-'].all isLetter := by decide
      have hsigned := ((madeOf_suffix hsigns rest).add (lettered_digits _)).cons hletter
      rw [← Nat.add_assoc] at hsigned
      exact hsigned.needs _
    case isFalse => exact madeOf_zero _

theorem lettered_doubleTail (text : List Char) : Lettered text (doubleTailLength text) :=
  (lettered_exponent text).add (madeOf_suffix (by decide) _)

theorem lettered_fraction (whole : Nat) (text : List Char) :
    Lettered text (fractionLength whole text) := by
  unfold fractionLength
  split
  case h_1 rest =>
    refine MadeOf.needs _ (.cons (by decide) ?_)
    exact (lettered_digits rest).add (lettered_doubleTail _)
  case h_2 => exact (lettered_doubleTail text).needs _

theorem lettered_double (text : List Char) : Lettered text (doubleLength text) := by
  rw [doubleLength_eq]
  exact ((lettered_digits text).add (lettered_fraction _ _)).needs _

/-! ## Paths and marks -/

theorem isLetter_of_isMark {c : Char} (h : isMark c) : isLetter c := by
  simp only [isMark, Bool.or_eq_true, decide_eq_true_eq] at h
  rcases h with (rfl | rfl) | rfl <;> decide

theorem marks_furtherParents (text : List Char) :
    MadeOf isMark text (3 * furtherParents text) := by
  fun_induction furtherParents text with
  | case1 rest ih =>
    have hpair := ((ih.cons (c := '.') (by decide)).cons (c := '.') (by decide)).cons (c := '/')
      (by decide)
    rwa [show 1 + (1 + (1 + 3 * furtherParents rest)) = 3 * (1 + furtherParents rest) by omega]
      at hpair
  | case2 => exact madeOf_zero _

theorem marks_path (text : List Char) : MadeOf isMark text (pathLength text) := by
  fun_cases pathLength text with
  | case1 rest further =>
    have hslash : ['/'].all isMark := by decide
    have hparents := (marks_furtherParents rest).add (madeOf_suffix hslash _)
    have hwhole := (hparents.cons (c := '.') (by decide)).cons (c := '.') (by decide)
    rwa [← Nat.add_assoc, ← Nat.add_assoc] at hwhole
  | case2 rest => exact (madeOf_zero rest).cons (by decide)
  | case3 => exact madeOf_zero _

theorem lettered_dotted (text : List Char) : Lettered text (dottedLength text) := by
  unfold dottedLength
  split
  case h_1 rest => exact ((lettered_callable rest).cons (by decide)).needs _
  case h_2 => exact lettered_callable text

theorem lettered_ident (text : List Char) : Lettered text (identLength text) := by
  rw [identLength_eq]
  have hmarks : Lettered text (lookupMarks text).2 := fun _ hc =>
    isLetter_of_isMark (isMark_of_mem_marks hc)
  exact (hmarks.add (lettered_dotted _)).needs _

theorem lettered_annotated (text : List Char) :
    Lettered text (OperandClass.annotated.length text) := by
  simp only [OperandClass.length]
  split
  case h_1 rest => exact ((lettered_callable rest).cons (by decide)).needs _
  case h_2 => exact madeOf_zero _

/-! ## Symbols -/

/-- The longest symbol at the head of a text is one of the symbols. -/
theorem mem_of_symbolLength {symbols : List String} {text : List Char}
    (h : 0 < symbolLength symbols text) :
    String.ofList (text.take (symbolLength symbols text)) ∈ symbols := by
  rcases le_symbolLength_iff.mp (Nat.le_refl (symbolLength symbols text)) with
    hzero | ⟨symbol, hmem, hprefix, hle⟩
  · omega
  · have hge : symbol.length ≤ symbolLength symbols text :=
      le_symbolLength_iff.mpr (.inr ⟨symbol, hmem, hprefix, Nat.le_refl _⟩)
    have hlength : symbolLength symbols text = symbol.toList.length := by
      rw [String.length_toList]
      omega
    rwa [hlength, ← List.prefix_iff_eq_take.mp hprefix, String.ofList_toList]

theorem madeOf_symbols {P : Char → Bool} {symbols : List String} (hs : symbols.all (·.toList.all P))
    (text : List Char) : MadeOf P text (symbolLength symbols text) := by
  intro c hc
  rcases Nat.eq_zero_or_pos (symbolLength symbols text) with hzero | hpos
  · simp [hzero] at hc
  · have hletters := List.all_eq_true.mp hs _ (mem_of_symbolLength hpos)
    rw [String.toList_ofList] at hletters
    exact List.all_eq_true.mp hletters c hc

/-- The lexemes of all classes but those of literals and symbols are made of letters. -/
theorem lettered_of_isPlain {cls : OperandClass} (h : cls.isPlain) (text : List Char) :
    Lettered text (cls.length text) := by
  cases cls with
  | doubleQuoted | singleQuoted | regex | symbol => cases h
  | null | emptyMap | comma => exact madeOf_symbols (by decide) text
  | bool value => cases value <;> exact madeOf_symbols (by decide) text
  | int => exact (parts_int text).mono fun _ => isLetter_of_isNamePart
  | hexInt => exact (parts_hex text).mono fun _ => isLetter_of_isNamePart
  | double => exact lettered_double text
  | ident => exact lettered_ident text
  | path => exact (marks_path text).mono fun _ => isLetter_of_isMark
  | annotated => exact lettered_annotated text

/-! ## Literals -/

/-- The first closer that is not escaped ends a literal. -/
theorem length_quotedExtent_le {closer : Char} {multiline : Bool} {body : List Char}
    (hescape : '\\' ∉ body) (hmem : closer ∈ body) (rest : List Char) :
    (quotedExtent closer multiline (body ++ rest)).length ≤ body.length := by
  induction body with
  | nil => cases hmem
  | cons c body ih =>
    rw [List.mem_cons, not_or] at hescape
    rw [List.cons_append, quotedExtent_plain (Ne.symm hescape.1)]
    split
    case isTrue => simp
    case isFalse hc =>
      have hbody : closer ∈ body := (List.mem_cons.mp hmem).resolve_left (Ne.symm hc)
      have := ih hescape.2 hbody
      split
      · exact Nat.zero_le _
      · simp only [Extent.after, List.length_cons]
        omega

theorem closedLength_of_mem {quote : Char} {body : List Char} (hescape : '\\' ∉ body)
    (hmem : quote ∈ body) (rest : List Char) :
    closedLength (stringExtent? quote (quote :: body ++ rest)) < body.length + 2 := by
  have hle : (quotedExtent quote true (body ++ rest)).length ≤ body.length :=
    length_quotedExtent_le hescape hmem rest
  have hcases (e : Extent) : closedLength (some e) ≤ e.length := by
    obtain ⟨length, _ | _⟩ := e <;> simp [closedLength]
  have := hcases ((quotedExtent quote true (body ++ rest)).after 1)
  simp only [stringExtent?, List.cons_append, if_pos]
  simp only [Extent.after] at this ⊢
  omega

/-- The lexeme of a string literal has its quotes at both ends and, without escapes, nowhere else.
-/
theorem take_string {quote : Char} {text : List Char}
    (h : 0 < closedLength (stringExtent? quote text)) :
    ∃ raw, text.take (closedLength (stringExtent? quote text)) = quote :: raw ++ [quote] ∧
      ('\\' ∉ raw → quote ∉ raw) := by
  obtain ⟨raw, rest, rfl, hlength⟩ := closedLength_string h
  refine ⟨raw, ?_, fun hescape hmem => ?_⟩
  · have hlexeme : closedLength (stringExtent? quote (quote :: raw ++ quote :: rest)) =
        (quote :: raw ++ [quote]).length := by
      rw [hlength]
      simp
    have hsplit : quote :: raw ++ quote :: rest = (quote :: raw ++ [quote]) ++ rest := by simp
    rw [hlexeme, hsplit, List.take_left]
  · have := closedLength_of_mem hescape hmem (quote :: rest)
    omega

theorem take_regex {text : List Char} (h : 0 < closedLength (regexExtent? text)) :
    ∃ raw, text.take (closedLength (regexExtent? text)) = '~' :: '/' :: raw ++ ['/'] := by
  unfold regexExtent? at h ⊢
  split at h
  case h_2 => cases h
  case h_1 text =>
    obtain ⟨hclosed, hlength⟩ := closedLength_after 2 h
    obtain ⟨raw, rest, rfl, hraw⟩ := quotedExtent_split hclosed
    refine ⟨raw, ?_⟩
    have hlexeme : closedLength (some ((quotedExtent '/' false (raw ++ '/' :: rest)).after 2)) =
        ('~' :: '/' :: raw ++ ['/']).length := by
      rw [hlength, hraw]
      simp only [List.length_append, List.length_cons, List.length_nil]
      omega
    have hsplit : '~' :: '/' :: (raw ++ '/' :: rest) = ('~' :: '/' :: raw ++ ['/']) ++ rest := by
      simp
    simp only [hlexeme, hsplit, List.take_left]

/-! ## Tokens -/

/-- How the lexeme of a token is written. -/
inductive Written : List Char → TokenKind → Prop
  | word {lexeme : List Char} {kind : TokenKind} : (∀ c ∈ lexeme, isLetter c) → kind.isWord →
      Written lexeme kind
  | symbol {symbol : String} : symbol ∈ OperandClass.symbols ++ operatorSymbols →
      Written symbol.toList (.operator symbol)
  | string {raw : List Char} {doubleQuoted : Bool} (quote : Char) :
      quote = (if doubleQuoted then '"' else '\'') → ('\\' ∉ raw → quote ∉ raw) →
      Written (quote :: raw ++ [quote]) (.str raw doubleQuoted)
  | pattern (raw : List Char) : Written ('~' :: '/' :: raw ++ ['/']) (.regex raw)

theorem Written.mem_doubleQuote {lexeme raw : List Char} (h : Written lexeme (.str raw true)) :
    '"' ∈ lexeme := by
  cases h with
  | word _ hword => cases hword
  | string quote hquote _ => simp [hquote]

theorem written_of_class {cls : OperandClass} {text : List Char} {kind : TokenKind}
    (hpos : 0 < cls.length text) (h : cls.token (text.take (cls.length text)) = .ok kind) :
    Written (text.take (cls.length text)) kind := by
  have number {base : Nat} {digits : List Char} (h : intToken base digits = .ok kind) :
      kind.isWord := by
    unfold intToken at h
    simp only at h
    split at h
    · cases h
      rfl
    · cases h
  cases cls with
  | doubleQuoted | singleQuoted =>
    obtain ⟨raw, hlexeme, hquote⟩ := take_string hpos
    simp only [OperandClass.length, OperandClass.token, hlexeme] at h ⊢
    have hraw (quote : Char) : contents 1 (quote :: raw ++ [quote]) = raw := by simp [contents]
    rw [hraw] at h
    cases h
    exact .string _ rfl hquote
  | regex =>
    obtain ⟨raw, hlexeme⟩ := take_regex hpos
    simp only [OperandClass.length, OperandClass.token, hlexeme] at h ⊢
    have hraw : contents 2 ('~' :: '/' :: raw ++ ['/']) = raw := by simp [contents]
    rw [hraw] at h
    cases h
    exact .pattern raw
  | symbol =>
    simp only [OperandClass.length, OperandClass.token] at hpos h ⊢
    cases h
    split at hpos
    case isTrue => cases hpos
    case isFalse hregex =>
      rw [if_neg hregex]
      have hwritten := Written.symbol (List.mem_append_left operatorSymbols
        (mem_of_symbolLength hpos))
      rwa [String.toList_ofList] at hwritten
  | int | hexInt => exact .word (lettered_of_isPlain rfl text) (number h)
  | _ =>
    cases h
    exact .word (lettered_of_isPlain rfl text) rfl

/-- A token takes a lexeme, which is written as its kind is. -/
theorem read_written {mode : LexMode} {at_ after : Cursor} {token : Token}
    (h : read mode at_ = .ok (token, after)) (hk : token.kind ≠ .finish) :
    ∃ lexeme, lexeme ≠ [] ∧ at_.rest = lexeme ++ after.rest ∧ Written lexeme token.kind := by
  -- Any number of characters that is taken begins the rest of the text.
  have taken {count : Nat} (hpos : 0 < count) (hne : at_.rest ≠ [])
      (hafter : after = at_.advance count) (hw : Written (at_.rest.take count) token.kind) :
      ∃ lexeme, lexeme ≠ [] ∧ at_.rest = lexeme ++ after.rest ∧ Written lexeme token.kind := by
    refine ⟨at_.rest.take count, by simp [hne, Nat.ne_of_gt hpos], ?_, hw⟩
    rw [hafter]
    exact (List.take_append_drop count at_.rest).symm
  unfold read at h
  split at h
  case h_1 =>
    cases h
    exact absurd rfl hk
  case h_2 first rest hrest =>
    have hne : at_.rest ≠ [] := by simp [hrest]
    simp only at h
    cases mode with
    | operand =>
      simp only at h
      split at h
      case h_2 => cases h
      case h_1 cls count hclass =>
        obtain ⟨hkind, hafter⟩ := take_eq h
        have hpos := longestClass?_pos hclass
        rw [longestClass?_length hclass] at hpos hkind hafter
        exact taken hpos hne hafter (written_of_class hpos hkind)
    | operator =>
      simp only at h
      split at h
      case h_1 => cases h
      case h_2 count hcount =>
        obtain ⟨hkind, hafter⟩ := take_eq h
        have hpos := Nat.pos_of_ne_zero hcount
        refine taken hpos hne hafter ?_
        have hmem := mem_of_symbolLength hpos
        rw [← Except.ok.inj hkind]
        split
        case isTrue hcomma =>
          have hletters : ",".toList.all isLetter := by decide
          refine .word ?_ rfl
          rw [← String.toList_ofList (l := at_.rest.take _), hcomma]
          exact List.all_eq_true.mp hletters
        case isFalse =>
          have hwritten := Written.symbol (List.mem_append_right OperandClass.symbols hmem)
          rwa [String.toList_ofList] at hwritten
    | member =>
      simp only at h
      split at h
      case h_1 => cases h
      case h_2 count hcount =>
        obtain ⟨hkind, hafter⟩ := take_eq h
        refine taken (Nat.pos_of_ne_zero hcount) hne hafter ?_
        rw [← Except.ok.inj hkind]
        exact .word (lettered_callable at_.rest) rfl

theorem isBlank_of_isLetter {c : Char} (h : isLetter c) : Text.isBlank c = false := by
  rw [isLetter, Bool.or_eq_true] at h
  rcases h with hname | hsign
  · -- Between the last blank before the digits and the first one behind the letters.
    have hrange : 0x30 ≤ c.toNat ∧ c.toNat ≤ 0x7A := by
      rcases isNamePart_iff.mp hname with ((h | h) | h) | rfl
      · exact ⟨Nat.le_trans (by decide) h.1, Nat.le_trans h.2 (by decide)⟩
      · exact ⟨Nat.le_trans (by decide) h.1, Nat.le_trans h.2 (by decide)⟩
      · obtain ⟨hlo, hhi⟩ := Bool.and_eq_true_iff.mp h
        exact ⟨of_decide_eq_true hlo, Nat.le_trans (of_decide_eq_true hhi) (by decide)⟩
      · decide
    simp only [Text.isBlank, Text.blankRanges, List.any_cons, List.any_nil, Bool.or_false,
      Bool.or_eq_false_iff, Bool.and_eq_false_iff, decide_eq_false_iff_not]
    omega
  · simp only [List.contains_cons, List.contains_nil, Bool.or_false, Bool.or_eq_true,
      beq_iff_eq] at hsign
    rcases hsign with rfl | rfl | rfl | rfl | rfl | rfl | rfl | rfl | rfl | rfl | rfl <;> rfl

/-- No token is blank. -/
theorem Written.exists_not_blank {lexeme : List Char} {kind : TokenKind} (h : Written lexeme kind)
    (hne : lexeme ≠ []) : ∃ c ∈ lexeme, Text.isBlank c = false := by
  cases h with
  | word hletters _ =>
    obtain ⟨c, rest, rfl⟩ := List.exists_cons_of_ne_nil hne
    exact ⟨c, List.mem_cons_self, isBlank_of_isLetter (hletters c List.mem_cons_self)⟩
  | @symbol symbol hmem =>
    have hall : (OperandClass.symbols ++ operatorSymbols).all
        fun symbol => symbol.toList.any (!Text.isBlank ·) := by decide
    obtain ⟨c, hc, hblank⟩ := List.any_eq_true.mp (List.all_eq_true.mp hall symbol hmem)
    exact ⟨c, hc, by simpa using hblank⟩
  | @string raw doubleQuoted quote hquote _ =>
    refine ⟨quote, List.mem_cons_self, ?_⟩
    rw [hquote]
    cases doubleQuoted <;> rfl
  | pattern raw => exact ⟨'~', List.mem_cons_self, rfl⟩

end Token

end TagExpr
