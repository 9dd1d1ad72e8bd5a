import TagExpr.Proofs.Literal.Matching
import TagExpr.Proofs.Literal.Splitting
import TagExpr.Proofs.Token.Classification

/-!
# Backslashes in literals

In the contents of a literal that the lexer has read every backslash takes a character
(`paired_of_next`). Replacing escapes and splitting skip what a backslash takes, so neither of them
finds a backslash at the end that takes nothing.
-/

open scoped Computability

namespace TagExpr.Literal

variable {offset skip count : Nat} {char c : Char} {e : LexError}
  {p raw rest gathered source : List Char}

/-! ## Texts of pairs -/

/-- Behind every backslash there is a character for it to take. -/
inductive Paired : List Char → Prop
  | nil : Paired []
  | escaped (c : Char) {rest : List Char} : Paired rest → Paired ('\\' :: c :: rest)
  | plain {c : Char} {rest : List Char} : c ≠ '\\' → Paired rest → Paired (c :: rest)

theorem Paired.taken (h : Paired ('\\' :: rest)) : ∃ c after, rest = c :: after ∧ Paired after := by
  cases h with
  | escaped c hafter => exact ⟨c, _, rfl, hafter⟩
  | plain hc => exact absurd rfl hc

theorem Paired.tail (h : Paired (c :: rest)) (hc : c ≠ '\\') : Paired rest := by
  cases h with
  | escaped => exact absurd rfl hc
  | plain _ hrest => exact hrest

theorem Paired.prepend (h : Paired rest) (hp : '\\' ∉ p) : Paired (p ++ rest) := by
  induction p with
  | nil => exact h
  | cons c p ih =>
    rw [List.mem_cons, not_or] at hp
    exact .plain (Ne.symm hp.1) (ih hp.2)

theorem Paired.append (hp : Paired p) (hrest : Paired rest) : Paired (p ++ rest) := by
  induction hp with
  | nil => exact hrest
  | escaped c _ ih => exact .escaped c ih
  | plain hc _ ih => exact .plain hc ih

theorem Paired.behind (h : Paired (p ++ rest)) (hp : '\\' ∉ p) : Paired rest := by
  induction p with
  | nil => exact h
  | cons c p ih =>
    rw [List.mem_cons, not_or] at hp
    exact ih (h.tail (Ne.symm hp.1)) hp.2

/-- An escape takes no backslash that takes another character. -/
theorem Paired.escape (h : Paired ('\\' :: rest)) {offset : Nat}
    (hescape : Literal.escape offset rest = .ok (char, count)) :
    Paired (rest.drop (count - 1)) := by
  obtain ⟨c, digits, htake, hdigits⟩ := exists_taken hescape
  rw [← List.take_append_drop (count - 1) rest, htake] at h
  obtain ⟨_, _, heq, hpaired⟩ := h.taken
  obtain ⟨rfl, rfl⟩ := List.cons.inj heq
  exact hpaired.behind (not_mem_of_isHexDigit hdigits (by decide))

theorem Quoted.paired_behind {q : Char} {inner : List Char} (h : Quoted q inner)
    (hrest : Paired (inner ++ rest)) : Paired rest := by
  induction h with
  | nil => exact hrest
  | escaped c _ ih =>
    obtain ⟨_, _, heq, hafter⟩ := hrest.taken
    obtain ⟨rfl, rfl⟩ := List.cons.inj heq
    exact ih hafter
  | plain hc _ _ ih => exact ih (hrest.tail hc)

theorem Matched.paired_behind (h : Matched source) (hrest : Paired (source ++ rest)) :
    Paired rest := by
  induction h generalizing rest with
  | nil => exact hrest
  | escaped c _ ih =>
    obtain ⟨_, _, heq, hafter⟩ := hrest.taken
    obtain ⟨rfl, rfl⟩ := List.cons.inj heq
    exact ih hafter
  | plain hc _ ih => exact ih (hrest.tail fun heq => hc (by simp [heq]))
  | quoted hq hinner _ ih =>
    have hne := ne_backslash_of_quote hq
    rw [List.cons_append, List.append_assoc] at hrest
    exact ih ((hinner.paired_behind (hrest.tail hne)).tail hne)
  | braces _ _ ihInner ihRest =>
    rw [List.cons_append, List.append_assoc] at hrest
    exact ihRest ((ihInner (hrest.tail (by decide))).tail (by decide))

theorem Quoted.paired {q : Char} {inner : List Char} (h : Quoted q inner) : Paired inner := by
  induction h with
  | nil => exact .nil
  | escaped c _ ih => exact .escaped c ih
  | plain hc _ _ ih => exact .plain hc ih

theorem Matched.paired (h : Matched source) : Paired source := by
  induction h with
  | nil => exact .nil
  | escaped c _ ih => exact .escaped c ih
  | plain hc _ ih => exact .plain (fun heq => hc (by simp [heq])) ih
  | quoted hq hinner _ ih =>
    have hne := ne_backslash_of_quote hq
    exact .plain hne (hinner.paired.append (.plain hne ih))
  | braces _ _ ihInner ihRest =>
    exact .plain (by decide) (ihInner.append (.plain (by decide) ihRest))

/-! ## Escapes and their errors -/

theorem escape_not_dangling (h : escape offset rest = .error e) (hrest : rest ≠ []) :
    e.fault ≠ .danglingEscape := by
  unfold escape at h
  split at h
  case h_1 => exact absurd rfl hrest
  case h_2 =>
    split at h
    case h_1 =>
      split at h
      case h_1 =>
        split at h
        case h_1 => cases h
        case h_2 =>
          cases h
          simp
      case h_2 =>
        cases h
        simp
    case h_2 =>
      cases h
      simp
  case h_3 =>
    split at h
    case h_1 => cases h
    case h_2 =>
      cases h
      simp

theorem unescapeFrom_not_dangling (h : Paired (raw.drop skip))
    (he : unescapeFrom skip offset raw = .error e) : e.fault ≠ .danglingEscape := by
  fun_induction unescapeFrom skip offset raw with
  | case1 => cases he
  | case2 offset c rest skip ih => exact ih h he
  | case3 offset rest ih =>
    obtain ⟨c, after, hrest, -⟩ := Paired.taken h
    rcases error_of_bind he with hescape | ⟨⟨char, count⟩, hescape, he⟩
    · exact escape_not_dangling hescape (by simp [hrest])
    · rcases error_of_bind he with hlater | ⟨_, -, heq⟩
      · exact ih count (Paired.escape h hescape) hlater
      · cases heq
  | case4 offset c rest hc ih =>
    rcases error_of_bind he with hlater | ⟨_, -, heq⟩
    · exact ih (Paired.tail h hc) hlater
    · cases heq

theorem splitFrom_not_dangling (h : Paired (raw.drop skip))
    (he : splitFrom skip offset gathered raw = .error e) : e.fault ≠ .danglingEscape := by
  fun_induction splitFrom skip offset gathered raw with
  | case1 => cases he
  | case2 offset gathered c rest skip ih => exact ih h he
  | case3 offset gathered rest ih =>
    obtain ⟨c, after, hrest, -⟩ := Paired.taken h
    rcases error_of_bind he with hescape | ⟨⟨char, count⟩, hescape, hlater⟩
    · exact escape_not_dangling hescape (by simp [hrest])
    · exact ih char count (Paired.escape h hescape) hlater
  | case5 | case6 =>
    cases he
    simp
  | case7 offset gathered rest source hfound _ _ hhead ih =>
    obtain ⟨tail, rfl⟩ := List.head?_eq_some_iff.mp hhead
    obtain ⟨hmatched, after, htail⟩ := interpolated?_eq_some_iff_matched.mp hfound
    obtain rfl : tail = source ++ '\x7d' :: after := htail
    rcases error_of_bind he with hlater | ⟨_, -, heq⟩
    · refine ih ?_ hlater
      have hafter : Paired after :=
        (hmatched.paired_behind ((Paired.tail h (by decide)).tail (by decide))).tail (by decide)
      simpa using hafter
    · cases heq
  | case8 offset gathered rest next hhead _ hstart =>
    rename_i name _ ih
    rcases error_of_bind he with hlater | ⟨_, -, heq⟩
    · refine ih ?_ hlater
      have hword : '\\' ∉ name := fun hmem => by
        have := List.all_eq_true.mp List.all_takeWhile _ hmem
        exact absurd this (by decide)
      refine Paired.behind (p := name) ?_ hword
      rw [List.prefix_append_drop (List.takeWhile_prefix _) |>.symm]
      exact Paired.tail h (by decide)
    · cases heq
  | case4 _ _ _ _ _ ih | case9 _ _ _ _ _ _ _ _ ih => exact ih (Paired.tail h (by decide)) he
  | case10 _ _ _ _ hc _ ih => exact ih (Paired.tail h hc) he

theorem unescape_not_dangling (h : Paired raw) (he : unescape raw = .error e) :
    e.fault ≠ .danglingEscape := by
  have hdrop : Paired (raw.drop 0) := h
  exact unescapeFrom_not_dangling hdrop he

theorem split_not_dangling (h : Paired raw) (he : split raw = .error e) :
    e.fault ≠ .danglingEscape := by
  have hdrop : Paired (raw.drop 0) := h
  rcases error_of_bind he with hsplit | ⟨parts, -, hwhole⟩
  · exact splitFrom_not_dangling hdrop hsplit
  · split at hwhole <;> cases hwhole

/-! ## String tokens -/

theorem paired_of_quotedPart {q : Char} {multiline : Bool}
    (h : p ∈ (Token.quotedPart q multiline)∗) : Paired p := by
  obtain ⟨pieces, rfl, hpieces⟩ := Language.mem_kstar.mp h
  clear h
  induction pieces with
  | nil => exact .nil
  | cons piece pieces ih =>
    have hrest := ih fun piece hpiece => hpieces piece (List.mem_cons_of_mem _ hpiece)
    rw [List.flatten_cons]
    rcases hpieces piece List.mem_cons_self with ⟨c, hc, rfl⟩ | hescape
    · simp only [Bool.and_eq_true, bne_iff_ne] at hc
      exact .plain hc.1.2 hrest
    · obtain ⟨_, ⟨b, hb, rfl⟩, _, ⟨c, -, rfl⟩, rfl⟩ := Language.mem_mul.mp hescape
      obtain rfl : b = '\\' := by simpa using hb
      exact .escaped c hrest

theorem paired_contents {q : Char} {lexeme : List Char} (h : lexeme ∈ Token.quotedPattern q) :
    Paired (Token.contents 1 lexeme) := by
  obtain ⟨_, ⟨c, -, rfl⟩, _, hclosed, rfl⟩ := Language.mem_mul.mp h
  obtain ⟨body, hbody, rfl⟩ := Token.mem_closed.mp hclosed
  have hcontents : Token.contents 1 ([c] ++ (body ++ [q])) = body := List.dropLast_concat
  rw [hcontents]
  exact paired_of_quotedPart hbody

theorem class_of_read {at_ after : Cursor} {token : Token}
    (h : Token.read .operand at_ = .ok (token, after)) (hne : at_.rest ≠ []) :
    ∃ cls : Token.OperandClass, 0 < cls.length at_.rest ∧
      cls.token (at_.rest.take (cls.length at_.rest)) = .ok token.kind := by
  obtain ⟨first, rest, hrest⟩ := List.exists_cons_of_ne_nil hne
  simp only [Token.read, hrest] at h
  split at h
  case h_1 cls count hclass =>
    have hpos := Token.longestClass?_pos hclass
    obtain rfl := Token.longestClass?_length hclass
    rw [hrest]
    exact ⟨cls, hpos, (Token.take_eq h).1⟩
  case h_2 => cases h

/-- In the contents of a string token every backslash takes a character. -/
theorem paired_of_next {mode : LexMode} {at_ after : Cursor} {doubleQuoted : Bool} {span : Span}
    (h : Token.next mode at_ = .ok (⟨.str raw doubleQuoted, span⟩, after)) : Paired raw := by
  obtain ⟨found, -, hread⟩ := Token.next_eq h
  rcases Token.read_cases hread with ⟨-, hfinish, -⟩ | ⟨hne, count, -, hspelt, -⟩
  · cases hfinish
  · cases mode with
    | operator =>
      have hkind : TokenKind.str raw doubleQuoted =
        if String.ofList (found.rest.take count) = "," then .comma
          else .operator (String.ofList (found.rest.take count)) := hspelt
      split at hkind <;> cases hkind
    | member =>
      obtain ⟨_, _, hkind⟩ := hspelt
      cases hkind
    | operand =>
      obtain ⟨cls, hpos, htoken⟩ := class_of_read hread hne
      -- Only the two classes of string literals make such a token.
      cases cls with
      | doubleQuoted | singleQuoted =>
        simp only [Token.OperandClass.token, Except.ok.injEq, TokenKind.str.injEq] at htoken
        rw [← htoken.1]
        exact paired_contents ((Token.measures_quoted (by decide)).sound _ hpos)
      | int | hexInt =>
        simp only [Token.OperandClass.token, Token.intToken] at htoken
        split at htoken <;> cases htoken
      | _ => cases htoken

end TagExpr.Literal
