import Mathlib.Data.List.TakeWhile
import TagExpr.Proofs.Token.Extent
import TagExpr.Proofs.Token.Gaps

/-!
# A text is its tokens and what stands between them

A token begins behind separators and complete comments (`Gap`), takes at least one character, and
its span says exactly which ones (`at?_cases`); the end of the text is reported where nothing but
such filler is left, and only there (`at?_finish_iff`). So taking one token after the other comes to
an end, in whatever modes they are taken, and gaps and tokens together are the text
(`exists_scans`).
-/

namespace TagExpr

theorem Cursor.seek?_append (base : Nat) (before rest : List Char) :
    seek? (base + byteLength before) ⟨base, before ++ rest⟩ =
      some ⟨base + byteLength before, rest⟩ := by
  induction before generalizing base with
  | nil =>
    show seek? base ⟨base, rest⟩ = some ⟨base, rest⟩
    unfold seek?
    cases rest <;> simp
  | cons c before ih =>
    have hpos := c.utf8Size_pos
    have hne : ¬ base = base + byteLength (c :: before) := by
      simp only [byteLength]
      omega
    rw [List.cons_append, seek?, if_neg hne, byteLength, ← Nat.add_assoc]
    exact ih (base + c.utf8Size)

namespace Token

variable {mode : LexMode} {atEnd : Bool} {before rest gap lexeme body text : List Char}
  {token : Token}

/-! ## Gaps -/

/-- What may stand before a token: separators and, except after a navigation operator, comments. At
the end of a text a line comment needs no line feed. -/
inductive Gap (mode : LexMode) : Bool → List Char → Prop
  | nil {atEnd : Bool} : Gap mode atEnd []
  | separator {atEnd : Bool} {c : Char} {gap : List Char} :
      Text.isSeparator c → Gap mode atEnd gap → Gap mode atEnd (c :: gap)
  | line {atEnd : Bool} {body gap : List Char} : mode ≠ .member → '\n' ∉ body →
      Gap mode atEnd gap → Gap mode atEnd ('/' :: '/' :: body ++ '\n' :: gap)
  | block {atEnd : Bool} {body gap : List Char} : mode ≠ .member → ¬ "*/".toList <:+: body →
      Gap mode atEnd gap → Gap mode atEnd ('/' :: '*' :: body ++ '*' :: '/' :: gap)
  | lastLine {body : List Char} : mode ≠ .member → '\n' ∉ body →
      Gap mode true ('/' :: '/' :: body)

theorem gap_of_separators (h : ∀ c ∈ gap, Text.isSeparator c) : Gap mode atEnd gap := by
  induction gap with
  | nil => exact .nil
  | cons c gap ih =>
    exact .separator (h c List.mem_cons_self) (ih fun d hd => h d (List.mem_cons_of_mem c hd))

theorem Gap.separators (h : Gap .member atEnd gap) : ∀ c ∈ gap, Text.isSeparator c := by
  induction h with
  | nil => simp
  | separator hc _ ih => simpa [hc] using ih
  | line hm | block hm | lastLine hm => exact absurd rfl hm

/-- What is left of a gap in a state of the skipping. -/
def GapFrom (mode : LexMode) (atEnd : Bool) : Filler → List Char → Prop
  | .outside, text => Gap mode atEnd text
  | .line, text => (∃ body gap, text = body ++ '\n' :: gap ∧ '\n' ∉ body ∧ Gap mode atEnd gap) ∨
      atEnd = true ∧ '\n' ∉ text
  | .block _, text =>
      ∃ body gap, text = body ++ '*' :: '/' :: gap ∧ ¬ "*/".toList <:+: body ∧ Gap mode atEnd gap

theorem GapFrom.cons_line {c : Char} (hc : c ≠ '\n') (h : GapFrom mode atEnd .line text) :
    GapFrom mode atEnd .line (c :: text) := by
  rcases h with ⟨body, gap, rfl, hbody, hgap⟩ | ⟨hend, htext⟩
  · exact .inl ⟨c :: body, gap, rfl, by simp [hc.symm, hbody], hgap⟩
  · exact .inr ⟨hend, by simp [hc.symm, htext]⟩

/-- What is skipped is a gap. -/
theorem gapFrom_of_skipFiller (hm : mode ≠ .member) {filler : Filler} {offset : Nat}
    {found : Cursor} (h : skipFiller filler offset text = .ok found) :
    ∃ gap, text = gap ++ found.rest ∧ GapFrom mode found.rest.isEmpty filler gap := by
  fun_induction skipFiller filler offset text with
  | case1 => cases h
  | case2 =>
    cases h
    exact ⟨[], rfl, .inr ⟨rfl, by simp⟩⟩
  | case3 =>
    cases h
    exact ⟨[], rfl, .nil⟩
  | case4 offset rest ih =>
    obtain ⟨gap, rfl, hgap⟩ := ih h
    exact ⟨'\n' :: gap, rfl, .inl ⟨[], gap, rfl, by simp, hgap⟩⟩
  | case5 offset c rest hc ih =>
    obtain ⟨gap, rfl, hgap⟩ := ih h
    exact ⟨c :: gap, rfl, hgap.cons_line hc⟩
  | case6 _ offset rest ih =>
    obtain ⟨gap, rfl, hgap⟩ := ih h
    exact ⟨'*' :: '/' :: gap, rfl, [], gap, rfl, by simp, hgap⟩
  | case7 opened offset c rest hc ih =>
    obtain ⟨_, rfl, body, gap, rfl, hbody, hgap⟩ := ih h
    refine ⟨c :: (body ++ '*' :: '/' :: gap), rfl, c :: body, gap, rfl, ?_, hgap⟩
    intro hin
    rcases List.infix_cons_iff.mp hin with ⟨more, hmore⟩ | hin
    · obtain ⟨rfl, hslash⟩ := List.cons.inj hmore
      exact hc (more ++ '*' :: '/' :: gap ++ found.rest) rfl (by rw [← hslash]; rfl)
    · exact hbody hin
  | case8 offset rest ih =>
    obtain ⟨_, rfl, hline⟩ := ih h
    rcases hline with ⟨body, gap, rfl, hbody, hgap⟩ | ⟨hend, hbody⟩
    · exact ⟨'/' :: '/' :: (body ++ '\n' :: gap), rfl, .line hm hbody hgap⟩
    · refine ⟨'/' :: '/' :: _, rfl, ?_⟩
      rw [hend]
      exact .lastLine hm hbody
  | case9 offset rest ih =>
    obtain ⟨_, rfl, body, gap, rfl, hbody, hgap⟩ := ih h
    exact ⟨'/' :: '*' :: (body ++ '*' :: '/' :: gap), rfl, .block hm hbody hgap⟩
  | case10 offset c rest _ _ hsep ih =>
    obtain ⟨gap, rfl, hgap⟩ := ih h
    exact ⟨c :: gap, rfl, .separator hsep hgap⟩
  | case11 =>
    cases h
    exact ⟨[], rfl, .nil⟩

theorem gap_of_skip {c found : Cursor} (h : skip mode c = .ok found) :
    ∃ gap, c.rest = gap ++ found.rest ∧ Gap mode found.rest.isEmpty gap := by
  by_cases hm : mode = .member
  · subst hm
    cases h
    refine ⟨c.rest.takeWhile Text.isSeparator, List.takeWhile_append_dropWhile.symm, ?_⟩
    exact gap_of_separators fun d hd => List.all_eq_true.mp List.all_takeWhile d hd
  · have hskip : skipFiller .outside c.offset c.rest = .ok found := by
      cases mode with
      | member => exact absurd rfl hm
      | operand | operator =>
        simp only [skip] at h
        split at h
        case h_1 heq =>
          cases h
          exact heq
        case h_2 => cases h
    exact gapFrom_of_skipFiller hm hskip

theorem leaves_line (h : '\n' ∉ body) : Leaves .line (body ++ ['\n']) := by
  induction body with
  | nil => exact fun offset rest => rfl
  | cons c body ih =>
    rw [List.mem_cons, not_or] at h
    refine (ih h.2).cons fun offset rest => ?_
    rw [skipFiller]
    exact fun hc => h.1 hc.symm

theorem skipFiller_lastLine (h : '\n' ∉ body) (offset : Nat) :
    skipFiller .line offset body = .ok ⟨offset + byteLength body, []⟩ := by
  induction body generalizing offset with
  | nil => rfl
  | cons c body ih =>
    rw [List.mem_cons, not_or] at h
    rw [skipFiller, ih h.2, byteLength, Nat.add_assoc]
    exact fun hc => h.1 hc.symm

/-- Where nothing else is left, filler is skipped to the end of the text. -/
theorem skipFiller_all (h : Gap mode atEnd gap) (offset : Nat) :
    skipFiller .outside offset gap = .ok ⟨offset + byteLength gap, []⟩ := by
  have size : '/'.utf8Size = 1 ∧ '*'.utf8Size = 1 ∧ '\n'.utf8Size = 1 := ⟨rfl, rfl, rfl⟩
  have ends {n m : Nat} (h : n = m) : (.ok ⟨n, []⟩ : Except Nat Cursor) = .ok ⟨m, []⟩ := by rw [h]
  induction h generalizing offset with
  | nil => rfl
  | separator hc _ ih => rw [skipFiller_separator hc, ih, byteLength, Nat.add_assoc]
  | @line _ body gap _ hbody _ ih =>
    have hline := leaves_line hbody (offset + 2) gap
    rw [List.append_assoc, List.singleton_append, ih] at hline
    refine hline.trans (ends ?_)
    simp only [List.cons_append, byteLength, byteLength_append]
    omega
  | @block _ body gap _ hbody _ ih =>
    have hblock := leaves_block hbody offset (offset + 2) gap
    rw [List.append_assoc, ih] at hblock
    refine hblock.trans (ends ?_)
    simp only [List.cons_append, byteLength, byteLength_append]
    omega
  | lastLine _ hbody =>
    refine (skipFiller_lastLine hbody (offset + 2)).trans (ends ?_)
    simp only [byteLength]
    omega

theorem skip_all (h : Gap mode atEnd gap) (offset : Nat) :
    skip mode ⟨offset, gap⟩ = .ok ⟨offset + byteLength gap, []⟩ := by
  cases mode with
  | member =>
    have hall : ∀ c ∈ gap, Text.isSeparator c = true := h.separators
    simp only [skip, Cursor.skipWhile, List.takeWhile_eq_self_iff.mpr hall,
      List.dropWhile_eq_nil_iff.mpr hall]
  | operand | operator => simp only [skip, skipFiller_all h offset]

/-! ## One token -/

/-- No lexeme stands for the end of the text. -/
theorem Spelt.ne_finish {kind : TokenKind} (h : Spelt mode lexeme kind) : kind ≠ .finish := by
  rintro rfl
  cases mode with
  | operand =>
    obtain ⟨cls, htoken⟩ := h
    cases cls with
    | int | hexInt =>
      simp only [OperandClass.token, intToken] at htoken
      split at htoken <;> cases htoken
    | _ => cases htoken
  | operator =>
    simp only [Spelt] at h
    split at h <;> cases h
  | member =>
    obtain ⟨_, _, hkind⟩ := h
    cases hkind

/-- The token stands for `lexeme`, behind a gap that comes after the text `before`. -/
structure Stands (mode : LexMode) (before gap lexeme : List Char) (token : Token) : Prop where
  kind : token.kind ≠ .finish
  filler : Gap mode false gap
  nonempty : lexeme ≠ []
  start : token.span.start = byteLength (before ++ gap)
  stop : token.span.stop = byteLength (before ++ gap ++ lexeme)

theorem Stands.within (h : Stands mode before gap lexeme token) :
    byteLength before ≤ token.span.start ∧ token.span.start < token.span.stop := by
  obtain ⟨c, more, hlexeme⟩ := List.exists_cons_of_ne_nil h.nonempty
  have := c.utf8Size_pos
  rw [h.start, h.stop, hlexeme]
  simp only [byteLength_append, byteLength]
  omega

/-- What the next token is: the end of a text that holds nothing but filler, or the first thing that
comes after filler. -/
theorem next_cases {after : Cursor}
    (h : next mode ⟨byteLength before, rest⟩ = .ok (token, after))
    (fits : byteLength (before ++ rest) ≤ Span.maxOffset) :
    (token.kind = .finish ∧ token.span = Span.point (byteLength (before ++ rest)) ∧
      Gap mode true rest) ∨
    ∃ gap lexeme, rest = gap ++ lexeme ++ after.rest ∧ Stands mode before gap lexeme token := by
  obtain ⟨⟨offset, left⟩, hskip, hread⟩ := next_eq h
  obtain ⟨gap, hrest, hgap⟩ := gap_of_skip hskip
  obtain ⟨passed, hpassed, hoffset⟩ := skip_reaches hskip
  obtain ⟨hreach, hspan⟩ := read_reaches hread
  simp only at hrest hpassed hoffset
  obtain rfl : passed = gap := List.append_cancel_right (hpassed.symm.trans hrest)
  subst hrest
  rw [← byteLength_append] at hoffset
  rcases read_cases hread with ⟨rfl, hfinish, rfl⟩ | ⟨hne, count, hpos, hspelt, rfl⟩
  · rw [List.append_nil] at fits ⊢
    exact .inl ⟨hfinish, by rw [hspan, hoffset, Span.point], hgap⟩
  · have hread : left.take count ++ left.drop count = left := List.take_append_drop count left
    have hstop : (Cursor.advance ⟨offset, left⟩ count).offset =
        byteLength (before ++ passed ++ left.take count) := by
      rw [Cursor.advance, hoffset, byteLength_append (before ++ passed)]
    have hsize : byteLength (before ++ passed ++ left.take count) ≤ Span.maxOffset := by
      rw [← hread] at fits
      simp only [byteLength_append] at fits ⊢
      omega
    have hle : byteLength (before ++ passed) ≤
        byteLength (before ++ passed ++ left.take count) := by
      rw [byteLength_append (before ++ passed)]
      omega
    rw [hstop, hoffset, Span.ofRange_eq hle hsize] at hspan
    refine .inr ⟨passed, left.take count, ?_, hspelt.ne_finish, ?_, ?_, ?_, ?_⟩
    · rw [Cursor.advance, List.append_assoc, hread]
    · rw [List.isEmpty_eq_false_iff.mpr hne] at hgap
      exact hgap
    · simp [hne, Nat.ne_of_gt hpos]
    · rw [hspan]
    · rw [hspan]

theorem at?_eq (mode : LexMode) (before rest : List Char) :
    at? mode (before ++ rest) (byteLength before) =
      (next mode ⟨byteLength before, rest⟩).map (·.1) := by
  have hseek := Cursor.seek?_append 0 before rest
  rw [Nat.zero_add] at hseek
  rw [at?, Cursor.start, hseek]

/-- The token after a place of a text is the first thing after filler. -/
theorem at?_cases (h : at? mode (before ++ rest) (byteLength before) = .ok token)
    (fits : byteLength (before ++ rest) ≤ Span.maxOffset) :
    (token.kind = .finish ∧ token.span = Span.point (byteLength (before ++ rest)) ∧
      Gap mode true rest) ∨
    ∃ gap lexeme after, rest = gap ++ lexeme ++ after ∧ Stands mode before gap lexeme token := by
  rw [at?_eq] at h
  cases hnext : next mode ⟨byteLength before, rest⟩ with
  | error e =>
    rw [hnext] at h
    cases h
  | ok r =>
    rw [hnext] at h
    cases h
    exact (next_cases hnext fits).imp_right fun ⟨gap, lexeme, hrest, hstands⟩ =>
      ⟨gap, lexeme, r.2.rest, hrest, hstands⟩

/-- The end of the text is found exactly where nothing but filler is left. -/
theorem at?_finish_iff (mode : LexMode) (before rest : List Char)
    (fits : byteLength (before ++ rest) ≤ Span.maxOffset) :
    (∃ token, at? mode (before ++ rest) (byteLength before) = .ok token ∧ token.kind = .finish) ↔
      Gap mode true rest := by
  constructor
  · rintro ⟨token, h, hfinish⟩
    rcases at?_cases h fits with ⟨-, -, hgap⟩ | ⟨_, _, _, -, hstands⟩
    · exact hgap
    · exact absurd hfinish hstands.kind
  · intro hgap
    rw [at?_eq]
    simp only [next, skip_all hgap, bind, Except.bind, read]
    exact ⟨_, rfl, rfl⟩

/-! ## All tokens -/

/-- Taking one token after the other, from the place `pos` of the text on, gives these tokens and
ends at the end of the text or with an error. The token number `i` is taken in the mode `modes i`,
whatever decides on it. -/
inductive Scans (modes : Nat → LexMode) (text : List Char) :
    Nat → Nat → List Token → Except LexError Unit → Prop
  | finish {i pos : Nat} {token : Token} : at? (modes i) text pos = .ok token →
      token.kind = .finish → Scans modes text i pos [] (.ok ())
  | error {i pos : Nat} {e : LexError} : at? (modes i) text pos = .error e →
      Scans modes text i pos [] (.error e)
  | token {i pos : Nat} {token : Token} {tokens : List Token} {outcome : Except LexError Unit} :
      at? (modes i) text pos = .ok token → token.kind ≠ .finish →
      Scans modes text (i + 1) token.span.stop tokens outcome →
      Scans modes text i pos (token :: tokens) outcome

/-- Behind the text `before` come a gap and a lexeme for each of the tokens, and then `last`. -/
inductive Covers (modes : Nat → LexMode) (last : List Char) :
    Nat → List Char → List Token → List Char → Prop
  | nil {i : Nat} {before : List Char} : Covers modes last i before [] last
  | cons {i : Nat} {before gap lexeme after : List Char} {token : Token} {tokens : List Token} :
      Stands (modes i) before gap lexeme token →
      Covers modes last (i + 1) (before ++ gap ++ lexeme) tokens after →
      Covers modes last i before (token :: tokens) (gap ++ lexeme ++ after)

/-- Taking tokens comes to an end, and gaps and lexemes together are the text. -/
theorem exists_scans (modes : Nat → LexMode) (i : Nat) (before rest : List Char)
    (fits : byteLength (before ++ rest) ≤ Span.maxOffset) :
    ∃ tokens outcome last, Scans modes (before ++ rest) i (byteLength before) tokens outcome ∧
      Covers modes last i before tokens rest ∧
      (outcome = .ok () → Gap (modes (i + tokens.length)) true last) := by
  -- Each token takes at least one character of the rest.
  induction hn : rest.length using Nat.strongRecOn generalizing i before rest with
  | ind n ih =>
    cases hat : at? (modes i) (before ++ rest) (byteLength before) with
    | error e => exact ⟨[], _, rest, .error hat, .nil, fun h => by cases h⟩
    | ok token =>
      rcases at?_cases hat fits with ⟨hfinish, -, hgap⟩ | ⟨gap, lexeme, after, rfl, hstands⟩
      · exact ⟨[], _, rest, .finish hat hfinish, .nil, fun _ => hgap⟩
      · have hlexeme := List.length_pos_iff.mpr hstands.nonempty
        have htext : before ++ (gap ++ lexeme ++ after) = before ++ gap ++ lexeme ++ after := by
          simp only [List.append_assoc]
        rw [htext] at fits hat ⊢
        obtain ⟨tokens, outcome, last, hscans, hcovers, hend⟩ :=
          ih after.length (by simp only [← hn, List.length_append]; omega) (i + 1)
            (before ++ gap ++ lexeme) after fits rfl
        refine ⟨token :: tokens, outcome, last, .token hat hstands.kind ?_,
          .cons hstands hcovers, ?_⟩
        · rw [hstands.stop]
          exact hscans
        · rw [List.length_cons, Nat.add_comm tokens.length 1, ← Nat.add_assoc]
          exact hend

end Token

end TagExpr
