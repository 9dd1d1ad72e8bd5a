import TagExpr.Proofs.Token.Progress

/-!
# Where tokens and faults lie

Tokens, clauses, signatures and the pieces of literals begin and end at places of the text that they
are read from, and so do the faults of a text that is not made of tokens. Two notions say so: a
cursor that comes to another one by passing characters (`Cursor.Reaches`), and a span that lies
between two offsets (`Span.Within`).
-/

namespace TagExpr

/-! ## Places -/

namespace Span

/-- The span lies between the two offsets. -/
structure Within (lo hi : Nat) (s : Span) : Prop where
  lower : lo ≤ s.start
  ordered : s.start ≤ s.stop
  upper : s.stop ≤ hi

variable {lo hi lo' hi' start stop : Nat} {s : Span}

theorem Within.mono (h : s.Within lo hi) (hlo : lo' ≤ lo) (hhi : hi ≤ hi') : s.Within lo' hi' :=
  ⟨Nat.le_trans hlo h.lower, h.ordered, Nat.le_trans h.upper hhi⟩

theorem ofRange_eq (h : start ≤ stop) (fits : stop ≤ maxOffset) :
    ofRange start stop = ⟨start, stop⟩ := by
  rw [ofRange, saturate_of_le (Nat.le_trans h fits), saturate_of_le fits]

theorem within_ofRange (hlo : lo ≤ start) (h : start ≤ stop) (hhi : stop ≤ hi)
    (fits : hi ≤ maxOffset) : (ofRange start stop).Within lo hi := by
  rw [ofRange_eq h (Nat.le_trans hhi fits)]
  exact ⟨hlo, h, hhi⟩

/-- What lies in the rest of a text lies in the text. -/
theorem Within.later {offset : Nat} {x : Char} {rest : List Char}
    (h : s.Within (offset + x.utf8Size) (offset + x.utf8Size + byteLength rest)) :
    s.Within offset (offset + byteLength (x :: rest)) := by
  rw [byteLength, ← Nat.add_assoc]
  exact h.mono (Nat.le_add_right _ _) (Nat.le_refl _)

theorem Within.shift_eq (h : s.Within lo hi) {base : Nat} (fits : hi + base ≤ maxOffset) :
    s.shift base = ⟨s.start + base, s.stop + base⟩ :=
  shift_of_le (by have := h.ordered; have := h.upper; omega) (by have := h.upper; omega)

end Span

namespace Cursor

/-- The second cursor comes after the first one in one text. -/
def Reaches (c d : Cursor) : Prop :=
  ∃ passed, c.rest = passed ++ d.rest ∧ d.offset = c.offset + byteLength passed

variable {c d e : Cursor}

theorem Reaches.refl (c : Cursor) : c.Reaches c := ⟨[], rfl, rfl⟩

theorem Reaches.trans (h : c.Reaches d) (h' : d.Reaches e) : c.Reaches e := by
  obtain ⟨passed, hrest, hoffset⟩ := h
  obtain ⟨more, hrest', hoffset'⟩ := h'
  refine ⟨passed ++ more, ?_, ?_⟩
  · rw [hrest, hrest', List.append_assoc]
  · rw [hoffset', hoffset, byteLength_append, Nat.add_assoc]

theorem Reaches.le (h : c.Reaches d) : c.offset ≤ d.offset := by
  obtain ⟨passed, -, hoffset⟩ := h
  omega

theorem Reaches.endOffset (h : c.Reaches d) : d.endOffset = c.endOffset := by
  obtain ⟨passed, hrest, hoffset⟩ := h
  rw [Cursor.endOffset, Cursor.endOffset, hrest, hoffset, byteLength_append, Nat.add_assoc]

theorem offset_le_endOffset (c : Cursor) : c.offset ≤ c.endOffset := Nat.le_add_right _ _

theorem Reaches.le_endOffset (h : c.Reaches d) : d.offset ≤ c.endOffset :=
  h.endOffset ▸ d.offset_le_endOffset

theorem reaches_advance (c : Cursor) (count : Nat) : c.Reaches (c.advance count) :=
  ⟨c.rest.take count, (List.take_append_drop count c.rest).symm, rfl⟩

theorem reaches_skipWhile (c : Cursor) (p : Char → Bool) : c.Reaches (c.skipWhile p) :=
  ⟨c.rest.takeWhile p, List.takeWhile_append_dropWhile.symm, rfl⟩

/-- The next character has been passed. -/
theorem reaches_cons (offset : Nat) (x : Char) (rest : List Char) :
    Reaches ⟨offset, x :: rest⟩ ⟨offset + x.utf8Size, rest⟩ := ⟨[x], rfl, rfl⟩

end Cursor

theorem Text.utf8Size_of_isSeparator {x : Char} (h : Text.isSeparator x) : x.utf8Size = 1 := by
  simp only [Text.isSeparator, Bool.or_eq_true, beq_iff_eq] at h
  rcases h with (((rfl | rfl) | rfl) | rfl) | rfl <;> rfl

namespace Token

/-! ## Filler -/

theorem skipFiller_reaches {filler : Filler} {offset : Nat} {text : List Char} {next : Cursor}
    (h : skipFiller filler offset text = .ok next) : Cursor.Reaches ⟨offset, text⟩ next := by
  fun_induction skipFiller filler offset text with
  | case1 => cases h
  | case2 | case3 | case11 =>
    cases h
    exact .refl _
  | case4 offset rest ih => exact (Cursor.reaches_cons offset '\n' rest).trans (ih h)
  | case5 offset x rest _ ih | case7 _ offset x rest _ ih =>
    exact (Cursor.reaches_cons offset x rest).trans (ih h)
  | case6 _ offset rest ih =>
    exact (Cursor.reaches_cons offset '*' _).trans
      ((Cursor.reaches_cons (offset + 1) '/' rest).trans (ih h))
  | case8 offset rest ih =>
    exact (Cursor.reaches_cons offset '/' _).trans
      ((Cursor.reaches_cons (offset + 1) '/' rest).trans (ih h))
  | case9 offset rest ih =>
    exact (Cursor.reaches_cons offset '/' _).trans
      ((Cursor.reaches_cons (offset + 1) '*' rest).trans (ih h))
  | case10 offset x rest _ _ hsep ih =>
    have step := Cursor.reaches_cons offset x rest
    rw [Text.utf8Size_of_isSeparator hsep] at step
    exact step.trans (ih h)

/-- A comment that is not closed is opened in the text, unless it is the one that is being skipped.
-/
theorem skipFiller_error {filler : Filler} {offset opened : Nat} {text : List Char}
    (h : skipFiller filler offset text = .error opened) :
    filler = .block opened ∨ offset ≤ opened ∧ opened + 2 ≤ offset + byteLength text := by
  have size (x : Char) : 1 ≤ x.utf8Size := x.utf8Size_pos
  fun_induction skipFiller filler offset text with
  | case1 =>
    cases h
    exact .inl rfl
  | case2 | case3 | case11 => cases h
  | case4 offset rest ih =>
    rcases ih h with he | ⟨hlo, hhi⟩
    · cases he
    · have := size '\n'
      refine .inr ⟨by omega, ?_⟩
      simp only [byteLength]
      omega
  | case5 offset x rest _ ih =>
    rcases ih h with he | ⟨hlo, hhi⟩
    · cases he
    · exact .inr ⟨by omega, by simp only [byteLength]; omega⟩
  | case6 _ offset rest ih =>
    rcases ih h with he | ⟨hlo, hhi⟩
    · cases he
    · have := size '*'
      have := size '/'
      exact .inr ⟨by omega, by simp only [byteLength]; omega⟩
  | case7 _ offset x rest _ ih =>
    rcases ih h with he | ⟨hlo, hhi⟩
    · exact .inl he
    · exact .inr ⟨by omega, by simp only [byteLength]; omega⟩
  | case8 offset rest ih =>
    rcases ih h with he | ⟨hlo, hhi⟩
    · cases he
    · have := size '/'
      exact .inr ⟨by omega, by simp only [byteLength]; omega⟩
  | case9 offset rest ih =>
    have := size '/'
    have := size '*'
    rcases ih h with he | ⟨hlo, hhi⟩
    · cases he
      exact .inr ⟨Nat.le_refl _, by simp only [byteLength]; omega⟩
    · exact .inr ⟨by omega, by simp only [byteLength]; omega⟩
  | case10 offset x rest _ _ hsep ih =>
    have := size x
    rcases ih h with he | ⟨hlo, hhi⟩
    · cases he
    · exact .inr ⟨by omega, by simp only [byteLength]; omega⟩

theorem skip_reaches {mode : LexMode} {c d : Cursor} (h : skip mode c = .ok d) : c.Reaches d := by
  unfold skip at h
  split at h
  case h_1 =>
    cases h
    exact c.reaches_skipWhile _
  case h_2 =>
    split at h
    case h_1 found hf =>
      cases h
      exact skipFiller_reaches hf
    case h_2 => cases h

theorem skip_error {mode : LexMode} {c : Cursor} {e : LexError} (h : skip mode c = .error e)
    (fits : c.endOffset ≤ Span.maxOffset) : e.span.Within c.offset c.endOffset := by
  unfold skip at h
  split at h
  case h_1 => cases h
  case h_2 =>
    split at h
    case h_1 => cases h
    case h_2 opened hf =>
      cases h
      rcases skipFiller_error hf with he | ⟨hlo, hhi⟩
      · cases he
      · exact Span.within_ofRange hlo (by omega) hhi fits

/-! ## Tokens -/

theorem take_reaches {c after : Cursor} {count : Nat} {kind : Except LexFault TokenKind}
    {token : Token} (h : take c count kind = .ok (token, after)) :
    c.Reaches after ∧ token.span = Span.ofRange c.offset after.offset := by
  unfold take at h
  split at h
  case h_1 =>
    cases h
    exact ⟨c.reaches_advance count, rfl⟩
  case h_2 => cases h

theorem take_error {c : Cursor} {count : Nat} {kind : Except LexFault TokenKind} {e : LexError}
    (h : take c count kind = .error e) : e.span = spanOf c count := by
  unfold take at h
  split at h
  case h_1 => cases h
  case h_2 =>
    cases h
    rfl

theorem read_reaches {mode : LexMode} {c after : Cursor} {token : Token}
    (h : read mode c = .ok (token, after)) :
    c.Reaches after ∧ token.span = Span.ofRange c.offset after.offset := by
  unfold read at h
  split at h
  case h_1 =>
    cases h
    exact ⟨.refl _, rfl⟩
  case h_2 =>
    simp only at h
    cases mode with
    | operand =>
      simp only at h
      split at h
      case h_1 => exact take_reaches h
      case h_2 => cases h
    | operator | member =>
      simp only at h
      split at h
      case h_1 => cases h
      case h_2 => exact take_reaches h

theorem read_error {mode : LexMode} {c : Cursor} {e : LexError} (h : read mode c = .error e) :
    ∃ count, e.span = spanOf c count := by
  unfold read at h
  split at h
  case h_1 => cases h
  case h_2 =>
    simp only at h
    cases mode with
    | operand =>
      simp only at h
      split at h
      case h_1 => exact ⟨_, take_error h⟩
      case h_2 =>
        cases h
        exact ⟨_, rfl⟩
    | operator | member =>
      simp only at h
      split at h
      case h_1 =>
        cases h
        exact ⟨_, rfl⟩
      case h_2 => exact ⟨_, take_error h⟩

/-- A token begins after filler, and what follows it comes right after it. -/
theorem next_reaches {mode : LexMode} {c after : Cursor} {token : Token}
    (h : next mode c = .ok (token, after)) :
    ∃ found, c.Reaches found ∧ found.Reaches after ∧
      token.span = Span.ofRange found.offset after.offset := by
  obtain ⟨found, hskip, hread⟩ := next_eq h
  obtain ⟨hreach, hspan⟩ := read_reaches hread
  exact ⟨found, skip_reaches hskip, hreach, hspan⟩

theorem reaches_of_next {mode : LexMode} {c after : Cursor} {token : Token}
    (h : next mode c = .ok (token, after)) : c.Reaches after := by
  obtain ⟨found, hskip, hread, -⟩ := next_reaches h
  exact hskip.trans hread

theorem next_within {mode : LexMode} {c after : Cursor} {token : Token}
    (h : next mode c = .ok (token, after)) (fits : c.endOffset ≤ Span.maxOffset) :
    token.span.Within c.offset c.endOffset := by
  obtain ⟨found, hskip, hread, hspan⟩ := next_reaches h
  rw [hspan]
  exact Span.within_ofRange hskip.le hread.le (hskip.trans hread).le_endOffset fits

theorem next_error {mode : LexMode} {c : Cursor} {e : LexError} (h : next mode c = .error e)
    (fits : c.endOffset ≤ Span.maxOffset) : e.span.Within c.offset c.endOffset := by
  simp only [next, bind, Except.bind] at h
  split at h
  case h_1 hskip =>
    cases h
    exact skip_error hskip fits
  case h_2 found hskip =>
    obtain ⟨count, hspan⟩ := read_error h
    have reach := skip_reaches hskip
    have past := found.reaches_advance count
    rw [hspan]
    exact Span.within_ofRange reach.le past.le (reach.trans past).le_endOffset fits

/-! ## String literals -/

/-- The length that is found is that of the class. -/
theorem longestClass?_length {text : List Char} {cls : OperandClass} {count : Nat}
    (h : longestClass? text = some (cls, count)) : count = cls.length text := by
  have keeps (classes : List OperandClass) (best : Option (OperandClass × Nat))
      (hb : ∀ p ∈ best, p.2 = p.1.length text) :
      ∀ p ∈ classes.foldl (better text) best, p.2 = p.1.length text := by
    induction classes generalizing best with
    | nil => exact hb
    | cons cls classes ih =>
      refine ih _ fun p hp => ?_
      unfold better at hp
      split at hp
      · split at hp
        · cases hp
          rfl
        · exact hb p hp
      · split at hp
        · cases hp
          rfl
        · cases hp
  rw [longestClass?_fold] at h
  exact keeps OperandClass.all none (by simp) _ h

theorem quotedExtent_split {closer : Char} {multiline : Bool} {text : List Char}
    (h : (quotedExtent closer multiline text).closed) :
    ∃ body rest, text = body ++ closer :: rest ∧
      (quotedExtent closer multiline text).length = body.length + 1 := by
  fun_induction quotedExtent closer multiline text with
  | case1 | case2 | case3 | case6 => cases h
  | case4 x rest _ ih =>
    obtain ⟨body, after, rfl, hlen⟩ := ih h
    refine ⟨'\\' :: x :: body, after, rfl, ?_⟩
    simp only [Extent.after, hlen, List.length_cons]
    omega
  | case5 rest => exact ⟨[], rest, rfl, rfl⟩
  | case7 x rest _ _ _ ih =>
    obtain ⟨body, after, rfl, hlen⟩ := ih h
    refine ⟨x :: body, after, rfl, ?_⟩
    simp only [Extent.after, hlen, List.length_cons]
    omega

theorem closedLength_string {quote : Char} {text : List Char}
    (h : 0 < closedLength (stringExtent? quote text)) :
    ∃ body rest, text = quote :: body ++ quote :: rest ∧
      closedLength (stringExtent? quote text) = body.length + 2 := by
  unfold stringExtent? at h ⊢
  cases text with
  | nil => cases h
  | cons x text =>
    simp only at h ⊢
    split at h
    case isTrue hx =>
      subst hx
      rw [if_pos rfl]
      cases hclosed : (quotedExtent x true text).closed with
      | false => simp [closedLength, Extent.after, hclosed] at h
      | true =>
        obtain ⟨body, rest, heq, hlen⟩ := quotedExtent_split hclosed
        refine ⟨body, rest, by rw [heq]; rfl, ?_⟩
        simp only [closedLength, Extent.after, hclosed, hlen]
        omega
    case isFalse => cases h

/-- A string literal stands between two quotes. -/
theorem str_reaches {c after : Cursor} {raw : List Char} {doubleQuoted : Bool} {span : Span}
    (h : next .operand c = .ok (⟨.str raw doubleQuoted, span⟩, after)) :
    ∃ found quote, c.Reaches found ∧ found.Reaches after ∧
      span = Span.ofRange found.offset after.offset ∧ quote.utf8Size = 1 ∧
      found.rest = quote :: raw ++ quote :: after.rest := by
  obtain ⟨found, hskip, hread⟩ := next_eq h
  obtain ⟨hreach, hspan⟩ := read_reaches hread
  refine ⟨found, if doubleQuoted then '"' else '\'', skip_reaches hskip, hreach, hspan, ?_, ?_⟩
  · cases doubleQuoted <;> rfl
  · unfold read at hread
    split at hread
    case h_1 => cases hread
    case h_2 first rest hrest =>
      simp only at hread
      split at hread
      case h_2 => cases hread
      case h_1 cls count hclass =>
        obtain ⟨hkind, rfl⟩ := take_eq hread
        have hpos := longestClass?_pos hclass
        have hcount := longestClass?_length hclass
        have literal {quote : Char}
            (hlen : cls.length found.rest = closedLength (stringExtent? quote found.rest))
            (hraw : contents 1 (found.rest.take count) = raw) :
            found.rest = quote :: raw ++ quote :: (found.advance count).rest := by
          rw [hlen] at hcount
          obtain ⟨body, tail, htext, hbody⟩ := closedLength_string (hcount ▸ hpos)
          have hcut : quote :: body ++ quote :: tail = (quote :: body ++ [quote]) ++ tail := by simp
          have hn : count = (quote :: body ++ [quote]).length := by simp [hcount, hbody]
          rw [htext, hcut, hn, List.take_left] at hraw
          have hbody' : raw = body := by
            rw [← hraw]
            simp [contents]
          rw [Cursor.advance, htext, hcut, hn, List.drop_left, hbody']
          simp
        -- Only the two classes of string literals make such a token.
        cases cls with
        | doubleQuoted =>
          simp only [OperandClass.token, Except.ok.injEq, TokenKind.str.injEq] at hkind
          obtain ⟨hraw, rfl⟩ := hkind
          exact literal rfl hraw
        | singleQuoted =>
          simp only [OperandClass.token, Except.ok.injEq, TokenKind.str.injEq] at hkind
          obtain ⟨hraw, rfl⟩ := hkind
          exact literal rfl hraw
        | int | hexInt =>
          simp only [OperandClass.token, intToken] at hkind
          split at hkind <;> cases hkind
        | _ => cases hkind

end Token

/-! ## Signatures -/

namespace Signature

theorem name?_reaches {c after : Cursor} {name : String} {span : Span}
    (h : name? c = some (name, span, after)) :
    c.Reaches after ∧ span = Span.ofRange c.offset after.offset := by
  unfold name? at h
  split at h
  case h_1 => cases h
  case h_2 =>
    cases h
    exact ⟨c.reaches_advance _, rfl⟩

theorem reaches_skipSeparators (c : Cursor) : c.Reaches (skipSeparators c) := c.reaches_skipWhile _

theorem lambda?_reaches {c : Cursor} {clause : LambdaClause} (h : lambda? c = some clause) :
    c.Reaches clause.body := by
  unfold lambda? at h
  obtain ⟨⟨name, span, after⟩, hname, h⟩ := Option.bind_eq_some_iff.mp h
  have harrow : c.Reaches (skipSeparators after) :=
    (reaches_skipSeparators c).trans ((name?_reaches hname).1.trans (reaches_skipSeparators after))
  simp only at h
  split at h
  case isTrue => cases h
  case isFalse =>
    split at h
    case h_1 =>
      cases h
      exact harrow.trans (Cursor.reaches_advance _ 2)
    case h_2 => cases h

theorem paramsFrom_reaches {fuel : Nat} {c after : Cursor} {params : List (String × Span)}
    (h : paramsFrom fuel c = some (params, after)) :
    c.Reaches after ∧
      (c.endOffset ≤ Span.maxOffset → ∀ p ∈ params, p.2.Within c.offset c.endOffset) := by
  induction fuel generalizing c params with
  | zero => cases h
  | succ fuel ih =>
    unfold paramsFrom at h
    obtain ⟨⟨name, span, next⟩, hname, h⟩ := Option.bind_eq_some_iff.mp h
    obtain ⟨hreach, hspan⟩ := name?_reaches hname
    have first (fits : c.endOffset ≤ Span.maxOffset) : span.Within c.offset c.endOffset := by
      rw [hspan]
      exact Span.within_ofRange (Nat.le_refl _) hreach.le hreach.le_endOffset fits
    have next : c.Reaches (skipSeparators next) := hreach.trans (reaches_skipSeparators next)
    simp only at h
    split at h
    case h_1 =>
      obtain ⟨⟨more, last⟩, hmore, h⟩ := Option.bind_eq_some_iff.mp h
      cases h
      have comma := next.trans ((Cursor.reaches_advance _ 1).trans (reaches_skipSeparators _))
      obtain ⟨hlast, hspans⟩ := ih hmore
      refine ⟨comma.trans hlast, fun fits => ?_⟩
      have later := hspans (comma.endOffset ▸ fits)
      simp only [List.mem_cons, forall_eq_or_imp]
      exact ⟨first fits, fun p hp => (later p hp).mono comma.le (Nat.le_of_eq comma.endOffset)⟩
    case h_2 =>
      cases h
      refine ⟨next.trans (Cursor.reaches_advance _ 1), fun fits => ?_⟩
      simpa using first fits
    case h_3 => cases h

theorem params?_reaches {c after : Cursor} {params : List (String × Span)}
    (h : params? c = some (params, after)) :
    c.Reaches after ∧
      (c.endOffset ≤ Span.maxOffset → ∀ p ∈ params, p.2.Within c.offset c.endOffset) := by
  unfold params? at h
  split at h
  case h_1 =>
    have inner : c.Reaches (skipSeparators (c.advance 1)) :=
      (c.reaches_advance 1).trans (reaches_skipSeparators _)
    simp only at h
    split at h
    case h_1 =>
      cases h
      exact ⟨inner.trans (Cursor.reaches_advance _ 1), by simp⟩
    case h_2 =>
      obtain ⟨hlast, hspans⟩ := paramsFrom_reaches h
      refine ⟨inner.trans hlast, fun fits p hp => ?_⟩
      exact (hspans (inner.endOffset ▸ fits) p hp).mono inner.le (Nat.le_of_eq inner.endOffset)
  case h_2 =>
    cases h
    exact ⟨.refl _, by simp⟩

/-- The parts of a definition lie in its text. -/
theorem definition?_reaches {text : List Char} {d : Definition} (h : definition? text = some d) :
    (Cursor.start text).Reaches d.body ∧
      (byteLength text ≤ Span.maxOffset → d.nameSpan.Within 0 (byteLength text) ∧
        ∀ p ∈ d.params, p.2.Within 0 (byteLength text)) := by
  unfold definition? at h
  obtain ⟨⟨name, span, next⟩, hname, h⟩ := Option.bind_eq_some_iff.mp h
  have start := reaches_skipSeparators (Cursor.start text)
  have length : (Cursor.start text).endOffset = byteLength text := Nat.zero_add _
  obtain ⟨hreach, hspan⟩ := name?_reaches hname
  have after := start.trans hreach
  simp only at h
  split at h
  case isTrue => cases h
  case isFalse =>
    obtain ⟨⟨params, last⟩, hparams, h⟩ := Option.bind_eq_some_iff.mp h
    obtain ⟨hlast, hspans⟩ := params?_reaches hparams
    have within (fits : byteLength text ≤ Span.maxOffset) : span.Within 0 (byteLength text) ∧
        ∀ p ∈ params, p.2.Within 0 (byteLength text) := by
      have later := hspans (by rw [after.endOffset, length]; exact fits)
      rw [after.endOffset, length] at later
      refine ⟨?_, fun p hp => (later p hp).mono (Nat.zero_le _) (Nat.le_refl _)⟩
      rw [hspan, ← length]
      exact Span.within_ofRange (Nat.zero_le _) hreach.le after.le_endOffset (length ▸ fits)
    have arrow := (after.trans hlast).trans (reaches_skipSeparators last)
    simp only at h
    split at h
    case h_1 | h_2 =>
      cases h
      exact ⟨arrow.trans (Cursor.reaches_advance _ 2), within⟩
    case h_3 => cases h

end Signature

/-! ## Literals -/

namespace Literal

theorem escape_error {offset : Nat} {text : List Char} {e : LexError}
    (h : escape offset text = .error e) (fits : offset + 1 + byteLength text ≤ Span.maxOffset) :
    e.span.Within offset (offset + 1 + byteLength text) := by
  have size (x : Char) : 1 ≤ x.utf8Size := x.utf8Size_pos
  have within {stop : Nat} (hlo : offset ≤ stop) (hhi : stop ≤ offset + 1 + byteLength text) :
      (Span.ofRange offset stop).Within offset (offset + 1 + byteLength text) :=
    Span.within_ofRange (Nat.le_refl _) hlo hhi fits
  unfold escape at h
  split at h
  case h_1 =>
    cases h
    exact within (by omega) (by omega)
  case h_2 digits =>
    have hu := size 'u'
    have short : (Span.ofRange offset (offset + 2)).Within offset
        (offset + 1 + byteLength ('u' :: digits)) :=
      within (by omega) (by simp only [byteLength]; omega)
    split at h
    case h_1 w x y z more =>
      have := size w
      have := size x
      have := size y
      have := size z
      split at h
      case h_1 =>
        split at h
        case h_1 => cases h
        case h_2 =>
          cases h
          exact within (by omega) (by simp only [byteLength]; omega)
      case h_2 =>
        cases h
        exact short
    case h_2 =>
      cases h
      exact short
  case h_3 x more _ =>
    split at h
    case h_1 => cases h
    case h_2 =>
      cases h
      exact within (by omega) (by simp only [byteLength]; omega)

theorem unescapeFrom_error {skip offset : Nat} {text : List Char} {e : LexError}
    (h : unescapeFrom skip offset text = .error e)
    (fits : offset + byteLength text ≤ Span.maxOffset) :
    e.span.Within offset (offset + byteLength text) := by
  induction text generalizing skip offset with
  | nil => cases h
  | cons x rest ih =>
    rw [byteLength, ← Nat.add_assoc] at fits
    have later {skip : Nat} (h : unescapeFrom skip (offset + x.utf8Size) rest = .error e) :
        e.span.Within offset (offset + byteLength (x :: rest)) := (ih h fits).later
    unfold unescapeFrom at h
    cases skip with
    | succ skip => exact later h
    | zero =>
      simp only [bind, Except.bind] at h
      split at h
      case isTrue hx =>
        subst hx
        split at h
        case h_1 hescape =>
          cases h
          rw [byteLength, ← Nat.add_assoc]
          exact escape_error hescape fits
        case h_2 found _ =>
          split at h
          case h_1 hrest =>
            cases h
            exact later hrest
          case h_2 => cases h
      case isFalse =>
        split at h
        case h_1 hrest =>
          cases h
          exact later hrest
        case h_2 => cases h

/-- A closing brace follows the source. -/
theorem closed_of_interpolated? {depth : Nat} {quote : Option Char} {text source : List Char}
    (h : interpolated? depth quote text = some source) :
    ∃ after, text = source ++ '\x7d' :: after := by
  fun_induction interpolated? depth quote text generalizing source with
  | case1 | case2 => cases h
  | case3 _ _ x rest ih =>
    obtain ⟨inner, hi, rfl⟩ := Option.map_eq_some_iff.mp h
    obtain ⟨after, rfl⟩ := ih hi
    exact ⟨after, rfl⟩
  | case6 rest =>
    cases h
    exact ⟨rest, rfl⟩
  | case4 _ _ rest _ _ ih | case5 _ rest _ ih | case7 rest _ _ _ ih | case8 _ _ rest _ _ _ _ ih
  | case9 _ _ rest _ _ _ _ ih =>
    obtain ⟨inner, hi, rfl⟩ := Option.map_eq_some_iff.mp h
    obtain ⟨after, rfl⟩ := ih hi
    exact ⟨after, rfl⟩

/-- A segment stands in a text that begins at `offset`, and what its source or name is written with
around it. -/
inductive Segment.Stands (text : List Char) (offset : Nat) : Segment → Prop
  | text (whole : List Char) : Stands text offset (.text whole)
  | expression {before source after : List Char} :
      text = before ++ '$' :: '\x7b' :: source ++ '\x7d' :: after →
      Stands text offset (.expression source (offset + byteLength before + 2))
  | name {before name after : List Char} : text = before ++ '$' :: name ++ after →
      Stands text offset (.name name (offset + byteLength before + 1))

theorem Segment.Stands.cons {segment : Segment} {rest : List Char} {offset : Nat} {x : Char}
    (h : segment.Stands rest (offset + x.utf8Size)) : segment.Stands (x :: rest) offset := by
  cases h with
  | text whole => exact .text whole
  | @expression before source after heq =>
    rw [Nat.add_assoc offset]
    exact @expression _ _ (x :: before) _ _ (by rw [heq]; rfl)
  | @name before lexeme after heq =>
    rw [Nat.add_assoc offset]
    exact @name _ _ (x :: before) _ _ (by rw [heq]; rfl)

theorem mem_flush {gathered : List Char} {segments : List Segment} {segment : Segment}
    (h : segment ∈ flush gathered segments) :
    segment = .text gathered.reverse ∨ segment ∈ segments := by
  unfold flush at h
  split at h
  case isTrue => exact .inr h
  case isFalse => exact List.mem_cons.mp h

theorem stands_of_mem_splitFrom {skip offset : Nat} {gathered text : List Char}
    {segments : List Segment} {segment : Segment}
    (h : splitFrom skip offset gathered text = .ok segments) (hm : segment ∈ segments) :
    segment.Stands text offset := by
  fun_induction splitFrom skip offset gathered text generalizing segments with
  | case1 =>
    cases h
    rcases mem_flush hm with rfl | hmem
    · exact .text _
    · cases hmem
  | case3 offset _ rest ih =>
    obtain ⟨⟨char, count⟩, -, hrest⟩ := ok_of_bind h
    exact (ih char count hrest hm).cons
  | case5 | case6 => cases h
  | case7 offset gathered rest source hfound _ _ hhead ih =>
    obtain ⟨tail, rfl⟩ := List.head?_eq_some_iff.mp hhead
    obtain ⟨inner, hrest, heq⟩ := ok_of_bind h
    cases heq
    rcases mem_flush hm with rfl | hmem
    · exact .text _
    · rcases List.mem_cons.mp hmem with rfl | hmem
      · obtain ⟨after, hafter⟩ := closed_of_interpolated? hfound
        have htail : tail = source ++ '\x7d' :: after := hafter
        exact @Segment.Stands.expression _ _ [] _ _ (by rw [htail]; rfl)
      · exact (ih hrest hmem).cons
  | case8 offset gathered rest =>
    rename_i ih
    obtain ⟨inner, hrest, heq⟩ := ok_of_bind h
    cases heq
    rcases mem_flush hm with rfl | hmem
    · exact .text _
    · rcases List.mem_cons.mp hmem with rfl | hmem
      · refine @Segment.Stands.name _ _ [] _ (rest.dropWhile Token.isNamePart) ?_
        exact congrArg ('$' :: ·) List.takeWhile_append_dropWhile.symm
      · exact (ih hrest hmem).cons
  | case2 _ _ _ _ _ ih | case4 _ _ _ _ _ ih | case9 _ _ _ _ _ _ _ _ ih
  | case10 _ _ _ _ _ _ ih => exact (ih h hm).cons

/-- Every segment stands in its literal where it says. -/
theorem stands_of_mem_split {raw : List Char} {segments : List Segment} {segment : Segment}
    (h : split raw = .ok segments) (hm : segment ∈ segments) : segment.Stands raw 0 := by
  obtain ⟨found, hfound, hsegments⟩ := ok_of_bind h
  split at hsegments
  case h_1 =>
    cases hsegments
    rw [List.mem_singleton.mp hm]
    exact .text []
  case h_2 =>
    cases hsegments
    exact stands_of_mem_splitFrom hfound hm

theorem error_of_bind {α β : Type} {x : Except LexError α} {f : α → Except LexError β}
    {e : LexError} (h : (x >>= f) = .error e) :
    x = .error e ∨ ∃ a, x = .ok a ∧ f a = .error e := by
  cases x with
  | error e' =>
    cases h
    exact .inl rfl
  | ok a => exact .inr ⟨a, rfl, h⟩

theorem splitFrom_error {skip offset : Nat} {gathered text : List Char} {e : LexError}
    (h : splitFrom skip offset gathered text = .error e)
    (fits : offset + byteLength text ≤ Span.maxOffset) :
    e.span.Within offset (offset + byteLength text) := by
  have size : '\x7b'.utf8Size = 1 ∧ '$'.utf8Size = 1 ∧ '\x7d'.utf8Size = 1 := ⟨rfl, rfl, rfl⟩
  fun_induction splitFrom skip offset gathered text with
  | case1 => cases h
  | case3 offset gathered rest ih =>
    rw [byteLength, ← Nat.add_assoc] at fits
    rcases error_of_bind h with hescape | ⟨⟨char, count⟩, -, hrest⟩
    · rw [byteLength, ← Nat.add_assoc]
      exact escape_error hescape fits
    · exact (ih char count hrest fits).later
  | case5 offset gathered rest =>
    cases h
    exact Span.within_ofRange (Nat.le_refl _) (by omega)
      (Nat.le_of_eq (by rw [byteLength, ← Nat.add_assoc]; rfl)) fits
  | case6 offset gathered rest source hfound _ _ hhead =>
    cases h
    obtain ⟨tail, rfl⟩ := List.head?_eq_some_iff.mp hhead
    obtain ⟨after, hafter⟩ := closed_of_interpolated? hfound
    have htail : tail = source ++ '\x7d' :: after := hafter
    refine Span.within_ofRange (Nat.le_refl _) (by omega) ?_ fits
    simp only [htail, byteLength, byteLength_append]
    omega
  | case7 offset _ rest _ _ _ _ _ ih | case8 offset _ rest _ _ _ _ _ _ ih =>
    rw [byteLength, ← Nat.add_assoc] at fits
    rcases error_of_bind h with hrest | ⟨_, -, heq⟩
    · exact (ih hrest fits).later
    · cases heq
  | case2 _ _ _ _ _ ih | case4 _ _ _ _ _ ih | case9 _ _ _ _ _ _ _ _ ih
  | case10 _ _ _ _ _ _ ih =>
    rw [byteLength, ← Nat.add_assoc] at fits
    exact (ih h fits).later

theorem split_error {raw : List Char} {e : LexError} (h : split raw = .error e)
    (fits : byteLength raw ≤ Span.maxOffset) : e.span.Within 0 (byteLength raw) := by
  rcases error_of_bind h with hrest | ⟨found, -, heq⟩
  · have := splitFrom_error hrest (by omega)
    rwa [Nat.zero_add] at this
  · split at heq <;> cases heq

theorem unescape_error {raw : List Char} {e : LexError} (h : unescape raw = .error e)
    (fits : byteLength raw ≤ Span.maxOffset) : e.span.Within 0 (byteLength raw) := by
  have := unescapeFrom_error h (by omega)
  rwa [Nat.zero_add] at this

end Literal

end TagExpr
