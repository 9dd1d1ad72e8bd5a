import TagExpr.Proofs.Token.Exchange

/-!
# How tokens are spelt

Every name token is spelt as one (`nameToken_of_read`), and what is spelt so is read as that token
(`NameToken.read`). A string literal in double quotes reaches to the first quote that is not escaped
(`quoted_of_read`, `read_quoted`). Behind any other token a name may begin only if the token ends
with a sign (`endsWord_of_read`).
-/

namespace TagExpr

/-- The token is a name, with marks or as a call head, or a member name. -/
def TokenKind.isName : TokenKind → Bool
  | .ident { kind := .name _, .. } => true
  | _ => false

namespace Token

open Signature (IsName)

variable {mode : LexMode} {text rest : List Char} {at_ after : Cursor} {token : Token}
  {kind : TokenKind}

/-! ## The class of a token -/

theorem read_operand_cases (h : read .operand at_ = .ok (token, after))
    (hk : token.kind ≠ .finish) :
    ∃ cls : OperandClass, longestClass? at_.rest = some (cls, cls.length at_.rest) ∧
      cls.token (at_.rest.take (cls.length at_.rest)) = .ok token.kind ∧
      after = at_.advance (cls.length at_.rest) := by
  unfold read at h
  split at h
  case h_1 =>
    cases h
    exact absurd rfl hk
  case h_2 =>
    simp only at h
    split at h
    case h_2 => cases h
    case h_1 cls count hclass =>
      obtain ⟨hkind, hafter⟩ := take_eq h
      obtain rfl := longestClass?_length hclass
      exact ⟨cls, hclass, hkind, hafter⟩

theorem read_operator_cases (h : read .operator at_ = .ok (token, after))
    (hk : token.kind ≠ .finish) :
    ∃ symbol : String, 0 < symbolLength operatorSymbols at_.rest ∧
      symbol.toList = at_.rest.take (symbolLength operatorSymbols at_.rest) ∧
      token.kind = (if symbol = "," then .comma else .operator symbol) ∧
      after = at_.advance (symbolLength operatorSymbols at_.rest) := by
  unfold read at h
  split at h
  case h_1 =>
    cases h
    exact absurd rfl hk
  case h_2 =>
    simp only at h
    split at h
    case h_1 => cases h
    case h_2 hne =>
      obtain ⟨hkind, hafter⟩ := take_eq h
      exact ⟨_, Nat.pos_of_ne_zero hne, String.toList_ofList, (Except.ok.inj hkind).symm, hafter⟩

theorem read_member_cases (h : read .member at_ = .ok (token, after)) (hk : token.kind ≠ .finish) :
    0 < callableLength at_.rest ∧ after = at_.advance (callableLength at_.rest) ∧
      token.kind = .ident
        { kind := .name (splitCall (at_.rest.take (callableLength at_.rest))).1
          call := (splitCall (at_.rest.take (callableLength at_.rest))).2 } := by
  unfold read at h
  split at h
  case h_1 =>
    cases h
    exact absurd rfl hk
  case h_2 =>
    simp only at h
    split at h
    case h_1 => cases h
    case h_2 hne =>
      obtain ⟨hkind, hafter⟩ := take_eq h
      exact ⟨Nat.pos_of_ne_zero hne, hafter, (Except.ok.inj hkind).symm⟩

/-! ## Names -/

/-- A keyword is read as a keyword, where nothing stands by it. -/
theorem not_keyword_of_ident {name : List Char} (hn : IsName name) (h : NameEnds false rest)
    (hfound : longestClass? (name ++ rest) = some (.ident, name.length)) :
    String.ofList name ∉ Signature.keywords := by
  intro hk
  have hpos := List.length_pos_iff.mpr hn.1
  have hends : Signature.EndsName rest := (h rfl).1
  have parts (keyword : String) (hk : keyword ∈ Signature.keywords) :=
    length_keyword hn hends (keyword_parts keyword hk)
  have whole : symbolLength [String.ofList name] (name ++ rest) = name.length := by
    refine Nat.le_antisymm (parts _ hk).1
      (le_symbolLength_iff.mpr (.inr ⟨_, List.mem_singleton_self _, ?_, ?_⟩))
    · simp
    · simp
  have short {keyword : String} (hk : keyword ∈ Signature.keywords)
      (hne : keyword ≠ String.ofList name) : symbolLength [keyword] (name ++ rest) < name.length :=
    Nat.lt_of_le_of_ne (parts _ hk).1 fun heq =>
      hne (by rw [← (parts _ hk).2 heq, String.ofList_toList])
  -- The classes of keywords are listed before that of names.
  have listed (cls : OperandClass) (before others : List OperandClass)
      (hall : OperandClass.all = before ++ cls :: others) (hne : cls ≠ .ident)
      (hcls : cls.length (name ++ rest) = name.length)
      (hbefore : ∀ other ∈ before, other.length (name ++ rest) < name.length) : False := by
    have := longestClass?_eq before others hall hpos hcls hbefore
      fun other _ => longestClass?_max hfound other
    rw [hfound] at this
    cases this
    exact hne rfl
  simp only [Signature.keywords, List.mem_cons, List.not_mem_nil, or_false] at hk short
  rcases hk with hk | hk | hk <;> rw [hk] at whole short
  · exact listed .null [] _ rfl (by simp) whole (by simp)
  · exact listed (.bool true) [.null] _ rfl (by simp) whole
      (by simpa [OperandClass.length] using short (.inl rfl) (by decide))
  · exact listed (.bool false) [.null, .bool true] _ rfl (by simp) whole
      (by simpa [OperandClass.length] using
        ⟨short (.inl rfl) (by decide), short (.inr (.inl rfl)) (by decide)⟩)

/-- The text begins with the lexeme of a name token, and goes on with `rest`. -/
inductive NameToken : LexMode → List Char → TokenKind → List Char → Prop
  | operand {lookup : Lookup} {marks name rest : List Char} {call : Bool} : Marks lookup marks →
      IsName name → NameEnds call rest →
      (marks = [] → call = false → String.ofList name ∉ Signature.keywords) →
      NameToken .operand (marks ++ (name ++ (opener call ++ rest)))
        (.ident ⟨.name (String.ofList name), lookup, call⟩) rest
  | member {name rest : List Char} {call : Bool} : IsName name → NameEnds call rest →
      NameToken .member (name ++ (opener call ++ rest))
        (.ident { kind := .name (String.ofList name), call }) rest

theorem NameToken.ne_operator (h : NameToken mode text kind rest) : mode ≠ .operator := by
  cases h <;> simp

/-- No filler stands before a name token. -/
theorem NameToken.startsIn (h : NameToken mode text kind rest) : StartsIn mode text := by
  have word {c : Char} (hc : isNamePart c) (rest : List Char) : StartsIn mode (c :: rest) :=
    startsIn_cons (isSeparator_of_isNamePart hc) fun _ hslash =>
      absurd hslash (isNamePart_ne hc (by decide))
  cases h with
  | member hn =>
    obtain ⟨c, more, hcons, hc⟩ := IsName.head hn _
    rw [hcons]
    exact word (isNamePart_of_isNameStart hc) more
  | operand hm hn =>
    obtain ⟨c, more, hcons, hc⟩ := IsName.head hn _
    rw [hcons]
    have hc := isNamePart_of_isNameStart hc
    cases hm with
    | none => exact word hc more
    | here | backslash => exact startsIn_cons rfl fun _ hslash => by cases hslash
    | up levels =>
      rw [List.replicate_succ, List.flatten_cons]
      exact startsIn_cons rfl fun _ hslash => by cases hslash
    | slash =>
      refine startsIn_cons rfl fun _ _ d hd => ?_
      cases hd
      exact ⟨isNamePart_ne hc (by decide), isNamePart_ne hc (by decide)⟩

/-- What is spelt as a name is read as that name. -/
theorem NameToken.read (h : NameToken mode text kind rest) (hat : at_.rest = text) :
    ∃ span after, Token.read mode at_ = .ok (⟨kind, span⟩, after) ∧ after.rest = rest := by
  cases h with
  | operand hm hn hends hplain => exact read_name hm hn hends hplain hat
  | member hn hends => exact read_member hn hends hat

/-- **A name token is spelt as one.** -/
theorem nameToken_of_read (h : Token.read mode at_ = .ok (token, after))
    (hname : token.kind.isName) :
    NameToken mode at_.rest token.kind after.rest := by
  have hk : token.kind ≠ .finish := by
    intro hk
    rw [hk] at hname
    cases hname
  cases mode with
  | operand =>
    obtain ⟨cls, hclass, hkind, rfl⟩ := read_operand_cases h hk
    obtain ⟨kind, span⟩ := token
    have hpos := longestClass?_pos hclass
    -- Only the class of identifiers makes such a token.
    cases cls with
    | ident =>
      obtain ⟨lookup, marks, name, call, rest, hm, hn, hends, htext, hlen⟩ | ⟨name, hinternal⟩ :=
        ident_cases hpos
      · have hlexeme : marks ++ (name ++ (opener call ++ rest)) =
            (marks ++ (name ++ opener call)) ++ rest := by simp
        have hident :
            OperandClass.ident.length at_.rest = (marks ++ (name ++ opener call)).length :=
          hlen
        have hrest : (at_.advance (OperandClass.ident.length at_.rest)).rest = rest := by
          rw [Cursor.advance, hident, htext, hlexeme, List.drop_left]
        rw [hident, htext, hlexeme, List.take_left, OperandClass.token, identOf_name hm hn] at hkind
        rw [hident, htext] at hclass
        rw [hrest, htext, ← Except.ok.inj hkind]
        refine .operand hm hn hends ?_
        rintro rfl rfl
        exact not_keyword_of_ident hn hends (by simpa [opener] using hclass)
      · obtain rfl := Except.ok.inj hkind
        unfold TokenKind.isName at hname
        split at hname
        case h_1 heq =>
          have hinternal : (identOf (at_.rest.take (OperandClass.ident.length at_.rest))).kind =
            .internal name := hinternal
          rw [TokenKind.ident.inj heq] at hinternal
          cases hinternal
        case h_2 => cases hname
    | int | hexInt =>
      simp only [OperandClass.token, intToken] at hkind
      split at hkind <;> cases hkind
      cases hname
    | _ =>
      cases hkind
      cases hname
  | operator =>
    obtain ⟨symbol, -, -, hkind, -⟩ := read_operator_cases h hk
    rw [hkind] at hname
    split at hname <;> cases hname
  | member =>
    obtain ⟨hpos, rfl, hkind⟩ := read_member_cases h hk
    obtain ⟨name, call, rest, htext, hn, hends, hlen⟩ := callable_cases hpos
    have hlexeme : name ++ (opener call ++ rest) = (name ++ opener call) ++ rest := by simp
    have hrest : (at_.advance (callableLength at_.rest)).rest = rest := by
      rw [Cursor.advance, hlen, htext, hlexeme, List.drop_left]
    rw [hlen, htext, hlexeme, List.take_left, splitCall_name hn] at hkind
    rw [hrest, htext, hkind]
    exact .member hn hends

/-! ## Literals in double quotes -/

/-- A literal reaches to its first quote that is not escaped. -/
theorem quoted_of_read {raw : List Char} {span : Span}
    (h : Token.read mode at_ = .ok (⟨.str raw true, span⟩, after)) :
    mode = .operand ∧ at_.rest = '"' :: (raw ++ '"' :: after.rest) ∧
      quotedExtent '"' true (raw ++ '"' :: after.rest) = ⟨raw.length + 1, true⟩ := by
  cases mode with
  | operator =>
    obtain ⟨symbol, -, -, hkind, -⟩ := read_operator_cases h (by simp)
    split at hkind <;> cases hkind
  | member =>
    obtain ⟨-, -, hkind⟩ := read_member_cases h (by simp)
    cases hkind
  | operand =>
    obtain ⟨cls, hclass, hkind, rfl⟩ := read_operand_cases h (by simp)
    have hpos := longestClass?_pos hclass
    -- Only the class of these literals makes such a token.
    cases cls with
    | doubleQuoted =>
      obtain ⟨body, rest, htext, hlen⟩ := closedLength_string hpos
      have hlen : OperandClass.doubleQuoted.length at_.rest = ('"' :: body ++ ['"']).length := by
        simpa [OperandClass.length] using hlen
      have hlexeme : '"' :: body ++ '"' :: rest = ('"' :: body ++ ['"']) ++ rest := by simp
      have hrest : (at_.advance (OperandClass.doubleQuoted.length at_.rest)).rest = rest := by
        rw [Cursor.advance, hlen, htext, hlexeme, List.drop_left]
      rw [hlen, htext, hlexeme, List.take_left] at hkind
      have hraw : body = raw := by
        simpa [OperandClass.token, contents] using hkind
      subst hraw
      rw [hrest]
      refine ⟨rfl, htext, ?_⟩
      rw [htext] at hlen hpos
      simp only [OperandClass.length, List.cons_append, stringExtent?, if_true] at hlen hpos
      obtain ⟨hclosed, hcount⟩ := closedLength_after 1 hpos
      generalize quotedExtent '"' true (body ++ '"' :: rest) = e at hlen hclosed hcount
      obtain ⟨length, closed⟩ := e
      simp only at hclosed hcount
      simp only [List.length_cons, List.length_append, List.length_nil] at hlen
      rw [hclosed]
      congr 1
      omega
    | int | hexInt =>
      simp only [OperandClass.token, intToken] at hkind
      split at hkind <;> cases hkind
    | _ => cases hkind

/-- What is spelt as a literal is read as that literal. -/
theorem read_quoted {raw : List Char} (hat : at_.rest = '"' :: (raw ++ '"' :: rest))
    (h : quotedExtent '"' true (raw ++ '"' :: rest) = ⟨raw.length + 1, true⟩) :
    ∃ span after, Token.read .operand at_ = .ok (⟨.str raw true, span⟩, after) ∧
      after.rest = rest := by
  have hlexeme : '"' :: (raw ++ '"' :: rest) = ('"' :: raw ++ ['"']) ++ rest := by simp
  have hopens : Opens ('"' :: (raw ++ '"' :: rest)) .doubleQuoted := .double _
  have hlen : OperandClass.doubleQuoted.length ('"' :: (raw ++ '"' :: rest)) =
      ('"' :: raw ++ ['"']).length := by
    simp only [OperandClass.length, stringExtent?, if_true, h, Extent.after, closedLength,
      List.length_append, List.length_cons, List.length_nil]
    omega
  obtain ⟨cls, n, hclass⟩ := exists_longestClass?
    (show 0 < OperandClass.doubleQuoted.length ('"' :: (raw ++ '"' :: rest)) by rw [hlen]; simp)
  have hn := longestClass?_length hclass
  have hdouble : cls = .doubleQuoted := by
    by_contra hne
    have hpos := longestClass?_pos hclass
    rw [hn, hopens.length_eq_zero hne] at hpos
    exact absurd hpos (Nat.lt_irrefl 0)
  subst hdouble
  rw [hn, hlen, hlexeme] at hclass
  refine read_of_class (hat.trans hlexeme) (by simp) hclass ?_
  simp [OperandClass.token, contents]

/-! ## Other tokens -/

/-- A token behind which an operand is expected ends with a sign, whatever follows a name. -/
theorem endsWord_of_read {lexeme : List Char} (h : Token.read mode at_ = .ok (token, after))
    (hk : token.kind ≠ .finish) (hname : token.kind.isName = false)
    (hmode : mode = .operator ∨ token.kind.modeAfter = .operand)
    (hat : at_.rest = lexeme ++ after.rest) : EndsWord lexeme := by
  have taken {count : Nat} (hafter : after = at_.advance count) (hle : count ≤ at_.rest.length) :
      lexeme = at_.rest.take count := by
    rw [hafter, Cursor.advance] at hat
    exact (List.append_cancel_right ((List.take_append_drop count at_.rest).trans hat)).symm
  have symbol {symbols : List String}
      (hs : symbols.all fun s => s.toList.getLast?.all (!isNamePart ·)) {symbol : String}
      (hmem : symbol ∈ symbols) : EndsWord symbol.toList := by
    intro c hc
    have hlast := List.all_eq_true.mp hs symbol hmem
    rw [hc] at hlast
    simpa using hlast
  cases mode with
  | operator =>
    obtain ⟨s, hpos, hs, -, hafter⟩ := read_operator_cases h hk
    have hmem := mem_of_symbolLength hpos
    rw [← hs, String.ofList_toList] at hmem
    rw [taken hafter (cuts_operators.le_length _), ← hs]
    exact symbol (by decide) hmem
  | member =>
    obtain ⟨-, -, hkind⟩ := read_member_cases h hk
    rw [hkind] at hname
    cases hname
  | operand =>
    obtain ⟨cls, hclass, hkind, hafter⟩ := read_operand_cases h hk
    have hpos := longestClass?_pos hclass
    have hlexeme := taken hafter (length_le cls _)
    rw [← hlexeme] at hkind
    obtain ⟨kind, span⟩ := token
    have hmode : kind.modeAfter = .operand := hmode.resolve_left (by simp)
    cases cls with
    | ident =>
      obtain rfl := Except.ok.inj hkind
      unfold identOf at hmode hname
      simp only at hmode hname
      split at hmode
      case h_1 => cases hmode
      case h_2 hdot =>
        split at hname
        case h_1 heq => exact absurd heq (hdot _)
        case h_2 => cases hname
    | annotated =>
      have hkind : kind = .ident
          { kind := .annotated (splitCall (lexeme.drop 1)).1
            call := (splitCall (lexeme.drop 1)).2 } := (Except.ok.inj hkind).symm
      -- It is a call head, so the parenthesis ends it.
      have hparen : (lexeme.drop 1).getLast? = some '(' := by
        rw [hkind] at hmode
        simp only [TokenKind.modeAfter] at hmode
        split at hmode
        case isFalse => cases hmode
        case isTrue hcall =>
          unfold splitCall at hcall
          split at hcall
          case isTrue hparen => exact hparen
          case isFalse => cases hcall
      obtain ⟨more, hmore⟩ : lexeme.drop 1 <:+ lexeme := List.drop_suffix 1 lexeme
      intro c hc
      rw [← hmore, List.getLast?_append, hparen] at hc
      cases hc
      rfl
    | symbol =>
      simp only [OperandClass.length] at hpos hlexeme
      split at hpos
      case isTrue => cases hpos
      case isFalse hregex =>
        rw [if_neg hregex] at hlexeme
        have hmem := mem_of_symbolLength hpos
        rw [← hlexeme] at hmem
        have hsigns : OperandClass.symbols.all fun s => s.toList.getLast?.all (!isNamePart ·) := by
          decide
        have hends := symbol hsigns hmem
        rwa [String.toList_ofList] at hends
    | int | hexInt =>
      simp only [OperandClass.token, intToken] at hkind
      split at hkind <;> cases hkind
      cases hmode
    | _ =>
      cases hkind
      cases hmode

end Token

end TagExpr
