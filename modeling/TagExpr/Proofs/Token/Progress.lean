import TagExpr.Literal.Interpolation
import TagExpr.Signature

/-!
# Tokens take characters

What follows a token is the end of the text in which the token stands, and an operator symbol, a
string literal and the source of an interpolated expression are parts of it. Every token but the end
of the text takes at least one character, so a parser that takes one token after the other comes to
an end.
-/

namespace TagExpr

/-! ## Filler -/

theorem Cursor.skipWhile_suffix (at_ : Cursor) (p : Char → Bool) :
    (at_.skipWhile p).rest <:+ at_.rest :=
  List.dropWhile_suffix p

theorem Cursor.advance_suffix (at_ : Cursor) (count : Nat) :
    (at_.advance count).rest <:+ at_.rest :=
  List.drop_suffix count at_.rest

namespace Token

theorem skipFiller_suffix {filler : Filler} {offset : Nat} {text : List Char} {next : Cursor}
    (h : skipFiller filler offset text = .ok next) : next.rest <:+ text := by
  fun_induction skipFiller filler offset text with
  -- An open comment at the end of the text is a fault.
  | case1 => cases h
  | case2 | case3 | case11 =>
    cases h
    exact List.suffix_rfl
  | case4 _ rest ih | case5 _ _ rest _ ih | case7 _ _ _ rest _ ih | case10 _ _ rest _ _ _ ih =>
    exact (ih h).trans (List.suffix_cons _ rest)
  | case6 _ _ rest ih | case8 _ rest ih | case9 _ rest ih =>
    exact (ih h).trans ((List.suffix_cons _ rest).trans (List.suffix_cons _ _))

theorem skip_suffix {mode : LexMode} {at_ next : Cursor} (h : skip mode at_ = .ok next) :
    next.rest <:+ at_.rest := by
  unfold skip at h
  split at h
  case h_1 =>
    cases h
    exact at_.skipWhile_suffix _
  case h_2 =>
    split at h
    case h_1 found hf =>
      cases h
      exact skipFiller_suffix hf
    case h_2 => cases h

/-! ## Lexemes -/

/-- The better of two classes, the earlier one if their lexemes are equally long. -/
def better (text : List Char) (best : Option (OperandClass × Nat)) (cls : OperandClass) :
    Option (OperandClass × Nat) :=
  match best with
  | some (_, longest) => if longest < cls.length text then some (cls, cls.length text) else best
  | none => if 0 < cls.length text then some (cls, cls.length text) else none

theorem longestClass?_fold (text : List Char) :
    longestClass? text = OperandClass.all.foldl (better text) none := rfl

/-- What holds of the length of every lexeme holds of the length that is found. -/
theorem better_length {text : List Char} {P : Nat → Prop} {classes : List OperandClass}
    (h : ∀ cls ∈ classes, 0 < cls.length text → P (cls.length text))
    (best : Option (OperandClass × Nat)) (hb : ∀ p ∈ best, P p.2) :
    ∀ p ∈ classes.foldl (better text) best, P p.2 := by
  induction classes generalizing best with
  | nil => exact hb
  | cons cls classes ih =>
    have hcls := h cls (by simp)
    refine ih (fun c hc => h c (by simp [hc])) _ ?_
    intro p hp
    unfold better at hp
    split at hp
    · split at hp
      case isTrue hlt =>
        cases hp
        exact hcls (Nat.zero_lt_of_lt hlt)
      case isFalse => exact hb p hp
    · split at hp
      case isTrue hpos =>
        cases hp
        exact hcls hpos
      case isFalse => cases hp

/-- The class that is found has a lexeme. -/
theorem longestClass?_pos {text : List Char} {cls : OperandClass} {count : Nat}
    (h : longestClass? text = some (cls, count)) : 0 < count := by
  rw [longestClass?_fold] at h
  exact better_length (P := (0 < ·)) (fun _ _ hpos => hpos) none (by simp) _ h

theorem take_eq {at_ after : Cursor} {count : Nat} {kind : Except LexFault TokenKind}
    {token : Token} (h : take at_ count kind = .ok (token, after)) :
    kind = .ok token.kind ∧ after = at_.advance count := by
  unfold take at h
  split at h
  case h_1 =>
    cases h
    exact ⟨rfl, rfl⟩
  case h_2 => cases h

/-- In its mode a lexeme stands for a token of that kind. -/
def Spelt (mode : LexMode) (lexeme : List Char) (kind : TokenKind) : Prop :=
  match mode with
  | .operand => ∃ cls : OperandClass, cls.token lexeme = .ok kind
  | .operator =>
    kind = if String.ofList lexeme = "," then .comma else .operator (String.ofList lexeme)
  | .member => ∃ name call, kind = .ident { kind := .name name, call }

/-- A token is the end of the text, or the next characters of the text stand for it. -/
theorem read_cases {mode : LexMode} {at_ after : Cursor} {token : Token}
    (h : read mode at_ = .ok (token, after)) :
    (at_.rest = [] ∧ token.kind = .finish ∧ after = at_) ∨
      at_.rest ≠ [] ∧ ∃ count, 0 < count ∧ Spelt mode (at_.rest.take count) token.kind ∧
        after = at_.advance count := by
  unfold read at h
  split at h
  case h_1 hrest =>
    cases h
    exact .inl ⟨hrest, rfl, rfl⟩
  case h_2 first rest hrest =>
    refine .inr ⟨by simp [hrest], ?_⟩
    simp only at h
    cases mode with
    | operand =>
      simp only at h
      split at h
      case h_1 cls count hc =>
        obtain ⟨hkind, hafter⟩ := take_eq h
        exact ⟨count, longestClass?_pos hc, ⟨cls, hkind⟩, hafter⟩
      case h_2 => cases h
    | operator =>
      simp only at h
      split at h
      case h_1 => cases h
      case h_2 count hne =>
        obtain ⟨hkind, hafter⟩ := take_eq h
        exact ⟨_, Nat.pos_of_ne_zero hne, (Except.ok.inj hkind).symm, hafter⟩
    | member =>
      simp only at h
      split at h
      case h_1 => cases h
      case h_2 count hne =>
        obtain ⟨hkind, hafter⟩ := take_eq h
        exact ⟨_, Nat.pos_of_ne_zero hne, ⟨_, _, (Except.ok.inj hkind).symm⟩, hafter⟩

theorem next_eq {mode : LexMode} {at_ : Cursor} {r : Token × Cursor} (h : next mode at_ = .ok r) :
    ∃ found, skip mode at_ = .ok found ∧ read mode found = .ok r := by
  simp only [next, bind, Except.bind] at h
  split at h
  case h_1 => cases h
  case h_2 found hf => exact ⟨found, hf, h⟩

/-- What follows a token is the end of the text in which it stands. -/
theorem next_suffix {mode : LexMode} {at_ after : Cursor} {token : Token}
    (h : next mode at_ = .ok (token, after)) : after.rest <:+ at_.rest := by
  obtain ⟨found, hskip, hread⟩ := next_eq h
  obtain ⟨-, -, rfl⟩ | ⟨-, count, -, -, rfl⟩ := read_cases hread
  · exact skip_suffix hskip
  · exact (found.advance_suffix count).trans (skip_suffix hskip)

/-- Every token but the end of the text makes the rest of the text shorter. -/
theorem length_next {mode : LexMode} {at_ after : Cursor} {token : Token}
    (h : next mode at_ = .ok (token, after)) (hk : token.kind ≠ .finish) :
    after.rest.length < at_.rest.length := by
  obtain ⟨found, hskip, hread⟩ := next_eq h
  obtain ⟨-, hfinish, -⟩ | ⟨hne, count, hpos, -, rfl⟩ := read_cases hread
  · exact absurd hfinish hk
  · have hle := (skip_suffix hskip).length_le
    have hlen := List.length_pos_iff.mpr hne
    simp only [Cursor.advance, List.length_drop]
    omega

/-- The lexeme of a token is a part of the text. -/
theorem next_spelt {mode : LexMode} {at_ after : Cursor} {token : Token}
    (h : next mode at_ = .ok (token, after)) (hk : token.kind ≠ .finish) :
    ∃ lexeme, lexeme <:+: at_.rest ∧ Spelt mode lexeme token.kind := by
  obtain ⟨found, hskip, hread⟩ := next_eq h
  obtain ⟨-, hfinish, -⟩ | ⟨-, count, -, hspelt, -⟩ := read_cases hread
  · exact absurd hfinish hk
  · have hpart := (List.take_prefix count found.rest).isInfix.trans (skip_suffix hskip).isInfix
    exact ⟨_, hpart, hspelt⟩

/-- An operator symbol is a part of the text. -/
theorem infix_of_symbol {mode : LexMode} {at_ after : Cursor} {symbol : String} {span : Span}
    (h : next mode at_ = .ok (⟨.operator symbol, span⟩, after)) : symbol.toList <:+: at_.rest := by
  obtain ⟨lexeme, hpart, hspelt⟩ := next_spelt h (by simp)
  have hsymbol : symbol = String.ofList lexeme := by
    cases mode with
    | operand =>
      obtain ⟨cls, htoken⟩ := hspelt
      -- Only the class of symbols makes such a token.
      cases cls with
      | symbol =>
        simp only [OperandClass.token, Except.ok.injEq, TokenKind.operator.injEq] at htoken
        exact htoken.symm
      | int | hexInt =>
        simp only [OperandClass.token, intToken] at htoken
        split at htoken <;> cases htoken
      | _ => cases htoken
    | operator =>
      simp only [Spelt] at hspelt
      split at hspelt
      · cases hspelt
      · exact TokenKind.operator.inj hspelt
    | member =>
      obtain ⟨_, _, hkind⟩ := hspelt
      cases hkind
  rwa [hsymbol, String.toList_ofList]

/-- A string literal is a part of the text. -/
theorem infix_of_str {at_ after : Cursor} {raw : List Char} {doubleQuoted : Bool} {span : Span}
    (h : next .operand at_ = .ok (⟨.str raw doubleQuoted, span⟩, after)) : raw <:+: at_.rest := by
  obtain ⟨lexeme, hpart, cls, htoken⟩ := next_spelt h (by simp)
  -- Only the two classes of string literals make such a token.
  have hraw : raw = contents 1 lexeme := by
    cases cls with
    | doubleQuoted | singleQuoted =>
      simp only [OperandClass.token, Except.ok.injEq, TokenKind.str.injEq] at htoken
      exact htoken.1.symm
    | int | hexInt =>
      simp only [OperandClass.token, intToken] at htoken
      split at htoken <;> cases htoken
    | _ => cases htoken
  rw [hraw]
  refine List.IsInfix.trans ?_ hpart
  exact (List.dropLast_prefix _).isInfix.trans (List.drop_suffix _ _).isInfix

end Token

/-! ## Signatures -/

namespace Signature

theorem name?_suffix {at_ after : Cursor} {name : String} {span : Span}
    (h : name? at_ = some (name, span, after)) : after.rest <:+ at_.rest := by
  unfold name? at h
  split at h
  case h_1 => cases h
  case h_2 =>
    cases h
    exact at_.advance_suffix _

theorem skipSeparators_suffix (at_ : Cursor) : (skipSeparators at_).rest <:+ at_.rest :=
  at_.skipWhile_suffix _

/-- The body of a clause is the end of the text in which the clause begins. -/
theorem lambda?_suffix {at_ : Cursor} {clause : LambdaClause} (h : lambda? at_ = some clause) :
    clause.body.rest <:+ at_.rest := by
  unfold lambda? at h
  obtain ⟨⟨name, span, after⟩, hname, h⟩ := Option.bind_eq_some_iff.mp h
  have harrow : (skipSeparators after).rest <:+ at_.rest :=
    (skipSeparators_suffix after).trans ((name?_suffix hname).trans (skipSeparators_suffix at_))
  simp only at h
  split at h
  case isTrue => cases h
  case isFalse =>
    split at h
    case h_1 =>
      cases h
      exact (Cursor.advance_suffix _ 2).trans harrow
    case h_2 => cases h

theorem paramsFrom_suffix {fuel : Nat} {at_ after : Cursor} {params : List (String × Span)}
    (h : paramsFrom fuel at_ = some (params, after)) : after.rest <:+ at_.rest := by
  induction fuel generalizing at_ params with
  | zero => cases h
  | succ fuel ih =>
    unfold paramsFrom at h
    obtain ⟨⟨name, span, next⟩, hname, h⟩ := Option.bind_eq_some_iff.mp h
    have hnext : (skipSeparators next).rest <:+ at_.rest :=
      (skipSeparators_suffix next).trans (name?_suffix hname)
    simp only at h
    split at h
    case h_1 =>
      obtain ⟨⟨rest, last⟩, hrest, h⟩ := Option.bind_eq_some_iff.mp h
      cases h
      exact (ih hrest).trans ((skipSeparators_suffix _).trans
        ((Cursor.advance_suffix _ 1).trans hnext))
    case h_2 =>
      cases h
      exact (Cursor.advance_suffix _ 1).trans hnext
    case h_3 => cases h

theorem params?_suffix {at_ after : Cursor} {params : List (String × Span)}
    (h : params? at_ = some (params, after)) : after.rest <:+ at_.rest := by
  unfold params? at h
  split at h
  case h_1 =>
    have hinner : (skipSeparators (at_.advance 1)).rest <:+ at_.rest :=
      (skipSeparators_suffix _).trans (at_.advance_suffix 1)
    simp only at h
    split at h
    case h_1 =>
      cases h
      exact (Cursor.advance_suffix _ 1).trans hinner
    case h_2 => exact (paramsFrom_suffix h).trans hinner
  case h_2 =>
    cases h
    exact List.suffix_rfl

/-- The body of a definition is the end of its text. -/
theorem definition?_suffix {text : List Char} {definition : Definition}
    (h : definition? text = some definition) : definition.body.rest <:+ text := by
  unfold definition? at h
  obtain ⟨⟨name, span, next⟩, hname, h⟩ := Option.bind_eq_some_iff.mp h
  have hnext : next.rest <:+ text := (name?_suffix hname).trans (skipSeparators_suffix _)
  simp only at h
  split at h
  case isTrue => cases h
  case isFalse =>
    obtain ⟨⟨params, after⟩, hparams, h⟩ := Option.bind_eq_some_iff.mp h
    have harrow : (skipSeparators after).rest <:+ text :=
      (skipSeparators_suffix after).trans ((params?_suffix hparams).trans hnext)
    simp only at h
    split at h
    case h_1 | h_2 =>
      cases h
      exact (Cursor.advance_suffix _ 2).trans harrow
    case h_3 => cases h

end Signature

/-! ## Interpolated sources -/

namespace Literal

theorem prefix_of_interpolated? {depth : Nat} {quote : Option Char} {text source : List Char}
    (h : interpolated? depth quote text = some source) : source <+: text := by
  fun_induction interpolated? depth quote text generalizing source with
  | case1 | case2 => cases h
  | case3 _ _ _ rest ih =>
    obtain ⟨inner, hi, rfl⟩ := Option.map_eq_some_iff.mp h
    simpa using ih hi
  | case6 =>
    cases h
    exact List.nil_prefix
  | case4 _ _ rest _ _ ih | case5 _ rest _ ih | case7 rest _ _ _ ih | case8 _ _ rest _ _ _ _ ih
  | case9 _ _ rest _ _ _ _ ih =>
    obtain ⟨inner, hi, rfl⟩ := Option.map_eq_some_iff.mp h
    simpa using ih hi

theorem ok_of_bind {α β : Type} {x : Except LexError α} {f : α → Except LexError β} {b : β}
    (h : (x >>= f) = .ok b) : ∃ a, x = .ok a ∧ f a = .ok b := by
  cases x with
  | error e => cases h
  | ok a => exact ⟨a, rfl, h⟩

theorem mem_of_mem_flush {gathered source : List Char} {place : Nat} {segments : List Segment}
    (h : .expression source place ∈ flush gathered segments) :
    .expression source place ∈ segments := by
  unfold flush at h
  split at h
  case isTrue => exact h
  case isFalse => simpa using h

theorem infix_of_mem_splitFrom {skip offset place : Nat} {gathered text source : List Char}
    {segments : List Segment} (h : splitFrom skip offset gathered text = .ok segments)
    (hm : .expression source place ∈ segments) : source <:+: text.tail ∧ text ≠ [] := by
  have longer {c : Char} {rest : List Char} (h : source <:+: rest.tail) :
      source <:+: (c :: rest).tail ∧ c :: rest ≠ [] :=
    ⟨h.trans (List.tail_suffix rest).isInfix, List.cons_ne_nil c rest⟩
  fun_induction splitFrom skip offset gathered text generalizing segments with
  | case1 =>
    cases h
    exact absurd (mem_of_mem_flush hm) (by simp)
  | case3 offset _ rest ih =>
    obtain ⟨⟨char, count⟩, -, hrest⟩ := ok_of_bind h
    exact longer (ih char count hrest hm).1
  | case5 | case6 => cases h
  | case7 _ _ rest found hfound _ _ _ ih =>
    obtain ⟨inner, hrest, heq⟩ := ok_of_bind h
    cases heq
    rcases List.mem_cons.mp (mem_of_mem_flush hm) with he | he
    · -- The source begins behind the dollar sign and its brace.
      cases he
      have hpart := (prefix_of_interpolated? hfound).isInfix.trans (List.drop_suffix 1 rest).isInfix
      exact ⟨hpart, List.cons_ne_nil _ rest⟩
    · exact longer (ih hrest he).1
  | case8 =>
    rename_i ih
    obtain ⟨inner, hrest, heq⟩ := ok_of_bind h
    cases heq
    rcases List.mem_cons.mp (mem_of_mem_flush hm) with he | he
    · cases he
    · exact longer (ih hrest he).1
  | case2 _ _ _ _ _ ih | case4 _ _ _ _ _ ih | case9 _ _ _ _ _ _ _ _ ih
  | case10 _ _ _ _ _ _ ih => exact longer (ih h hm).1

/-- An interpolated source is a part of the literal that holds it, without the first character. -/
theorem infix_of_mem_split {raw source : List Char} {place : Nat} {segments : List Segment}
    (h : split raw = .ok segments) (hm : .expression source place ∈ segments) :
    source <:+: raw.tail ∧ raw ≠ [] := by
  simp only [split, bind, Except.bind] at h
  split at h
  case h_1 => cases h
  case h_2 found hf =>
    split at h
    case h_1 =>
      cases h
      simp at hm
    case h_2 =>
      cases h
      exact infix_of_mem_splitFrom hf hm

/-- An interpolated source is shorter than the literal that holds it. -/
theorem length_of_mem_split {raw source : List Char} {place : Nat} {segments : List Segment}
    (h : split raw = .ok segments) (hm : .expression source place ∈ segments) :
    source.length < raw.length := by
  obtain ⟨hpart, hne⟩ := infix_of_mem_split h hm
  have hle := hpart.length_le
  have hlen := List.length_pos_iff.mpr hne
  rw [List.length_tail] at hle
  omega

end Literal

end TagExpr
