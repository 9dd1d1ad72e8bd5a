import TagExpr.Proofs.Literal.Splitting
import TagExpr.Proofs.Placing.Likeness
import TagExpr.Proofs.Renaming.Words
import TagExpr.Proofs.Token.Lossless
import TagExpr.Proofs.Token.Spelling

/-!
# What a renaming changes

A renamed text is the text itself with names in the places of names (`reworded_text`). Nothing is
renamed right behind a word, where an operator is expected.
-/

namespace TagExpr

/-! ## The place of a token -/

namespace Token

variable {mode : LexMode} {gap p rest : List Char} {c after : Cursor} {token : Token}

theorem EndsWord.cons {c : Char} (hc : isNamePart c = false) (h : EndsWord p) :
    EndsWord (c :: p) := by
  cases p with
  | nil =>
    intro d hd
    cases hd
    exact hc
  | cons d p => exact h

theorem EndsWord.append (h : EndsWord gap) (hne : gap ≠ []) : EndsWord (p ++ gap) := by
  intro c hc
  rw [List.getLast?_append_of_ne_nil p hne] at hc
  exact h c hc

/-- Before a token the text does not end inside a word. -/
theorem Gap.endsWord (h : Gap mode false gap) : EndsWord gap := by
  generalize hend : false = atEnd at h
  induction h with
  | nil => simp [EndsWord]
  | separator hc _ ih =>
    exact (ih hend).cons (separator_cases (P := fun c => isNamePart c = false) (by decide) _ hc)
  | line _ _ _ ih => exact ((ih hend).cons rfl).append (List.cons_ne_nil _ _)
  | block _ _ _ ih =>
    exact (((ih hend).cons rfl).cons rfl).append (List.cons_ne_nil _ _)
  | lastLine => cases hend

/-- A token stands behind a place: what comes before it, its lexeme, and what comes then. -/
structure Taken (mode : LexMode) (c : Cursor) (token : Token) (after : Cursor)
    (gap lexeme : List Char) : Prop where
  rest : c.rest = gap ++ (lexeme ++ after.rest)
  skips : Skips mode gap
  endsWord : EndsWord gap
  starts : StartsIn mode (lexeme ++ after.rest)
  read : ∃ found, skip mode c = .ok found ∧ found.rest = lexeme ++ after.rest ∧
    Token.read mode found = .ok (token, after)
  nonempty : lexeme ≠ []

theorem taken_of_next (h : next mode c = .ok (token, after)) (hk : token.kind ≠ .finish) :
    ∃ gap lexeme, Taken mode c token after gap lexeme := by
  obtain ⟨found, hskip, hread⟩ := next_eq h
  obtain ⟨-, hfinish, -⟩ | ⟨hne, count, hpos, -, hafter⟩ := read_cases hread
  · exact absurd hfinish hk
  obtain ⟨gap, hrest, hgap⟩ := gap_of_skip hskip
  obtain ⟨gap', hrest', hskips, hstarts⟩ := skip_gap hskip hne
  obtain rfl := List.append_cancel_right (hrest.symm.trans hrest')
  rw [List.isEmpty_eq_false_iff.mpr hne] at hgap
  have hlexeme : found.rest = found.rest.take count ++ after.rest := by
    rw [hafter]
    exact (List.take_append_drop count found.rest).symm
  refine ⟨gap, found.rest.take count, ?_, hskips, hgap.endsWord, ?_, ⟨found, hskip, hlexeme, hread⟩,
    by simp [hne, Nat.ne_of_gt hpos]⟩
  · rw [← hlexeme]
    exact hrest
  · rw [← hlexeme]
    exact hstarts

/-- The end of a text is found where nothing but filler is left. -/
theorem gap_of_finish (h : next mode c = .ok (token, after)) (hk : token.kind = .finish) :
    Gap mode true c.rest ∧ after.rest = [] := by
  obtain ⟨found, hskip, hread⟩ := next_eq h
  obtain ⟨hnil, -, rfl⟩ | ⟨-, _, -, hspelt, -⟩ := read_cases hread
  · obtain ⟨gap, hrest, hgap⟩ := gap_of_skip hskip
    rw [hnil] at hrest hgap
    rw [List.append_nil] at hrest
    exact ⟨hrest ▸ hgap, hnil⟩
  · exact absurd hk hspelt.ne_finish

end Token

open Signature (IsName EndsName Names Laid)
open Token (isNamePart isNameStart EndsWord NameToken opener)

namespace Renaming

variable (r : Renaming) {extensions : Extensions} {name rest p : List Char} {c : Char}

/-! ## Literals -/

variable {nested : List Char → List Char}

theorem contentsFrom_skip (p rest : List Char) :
    r.contentsFrom nested p.length (p ++ rest) = r.contents nested rest := by
  induction p with
  | nil => rfl
  | cons c p ih => exact ih

/-- In the contents of a literal names stand behind dollar signs and in interpolated sources. -/
theorem reworded_contentsFrom (hnested : ∀ source, Reworded false source (nested source))
    (skip : Nat) (raw : List Char) :
    Reworded true (raw.drop skip) (r.contentsFrom nested skip raw) := by
  fun_induction contentsFrom r nested skip raw with
  | case1 =>
    rw [List.drop_nil]
    exact .nil
  | case2 c rest skip ih => exact ih
  | case3 | case6 => exact .refl _ _
  | case4 rest char count _ ih =>
    have keeps := ih.behind (rest.take (count - 1)) (isNamePart '\\')
    rw [List.take_append_drop] at keeps
    exact .keep _ keeps
  | case5 rest hhead =>
    obtain rfl := List.head?_eq_none_iff.mp hhead
    exact .refl _ _
  | case7 rest source hsource _ hhead ih =>
    obtain ⟨tail, rfl⟩ := List.head?_eq_some_iff.mp hhead
    obtain ⟨after, hafter⟩ := Literal.closed_of_interpolated? hsource
    obtain rfl : tail = source ++ '\x7d' :: after := hafter
    have hdrop : ('\x7b' :: (source ++ '\x7d' :: after)).drop (source.length + 2) = after := by
      simp
    rw [hdrop] at ih
    exact .keep _ (.keep _ ((hnested source).append (by decide) (ih.weaken false)))
  | case8 rest next hhead _ hstart name _ ih =>
    obtain ⟨word, after, rfl, hn, hends, hword⟩ := Literal.dollar_name hhead hstart
    have hname : name = word := hword
    clear_value name
    subst hname
    rw [List.drop_left] at ih
    exact .keep _ (.name hn (r.isName_renamed hn) hends ih)
  | case9 _ _ _ _ _ _ ih | case10 _ _ _ _ ih => exact .keep _ (ih.weaken _)

theorem reworded_contents (hnested : ∀ source, Reworded false source (nested source))
    (raw : List Char) : Reworded true raw (r.contents nested raw) :=
  r.reworded_contentsFrom hnested 0 raw

/-! ## Tokens -/

variable (extensions)

/-- The sources of interpolated expressions, renamed in at most `fuel` tokens. -/
abbrev sources (fuel : Nat) (source : List Char) : List Char :=
  r.textFrom extensions fuel .operand (Cursor.start source)

variable {fuel : Nat} {mode : LexMode} {at_ after : Cursor} {token : Token} {kind : TokenKind}
  {gap lexeme : List Char}

theorem textFrom_taken (h : Token.Taken mode at_ token after gap lexeme) :
    r.textFrom extensions (fuel + 1) mode at_ =
      gap ++ (r.lexeme extensions (r.sources extensions fuel) token.kind lexeme ++
        r.behind (r.textFrom extensions fuel) mode token.kind after) := by
  obtain ⟨found, hskip, hfound, hread⟩ := h.read
  simp only [textFrom, hskip, hread, hfound, h.rest, before_append]

theorem textFrom_error {e : LexError} (h : Token.next mode at_ = .error e) :
    r.textFrom extensions (fuel + 1) mode at_ = at_.rest := by
  simp only [Token.next, bind, Except.bind] at h
  cases hskip : Token.skip mode at_ with
  | error e => simp only [textFrom, hskip]
  | ok found =>
    rw [hskip] at h
    simp only [textFrom, hskip, h]

/-- Filler stays as it is. -/
theorem textFrom_gap (h : Token.Gap mode true at_.rest) :
    r.textFrom extensions fuel mode at_ = at_.rest := by
  induction fuel generalizing mode at_ with
  | zero => rfl
  | succ fuel ih =>
    obtain ⟨offset, rest⟩ := at_
    have hnil : r.textFrom extensions fuel .operator ⟨offset + byteLength rest, []⟩ = [] := ih .nil
    have hread : Token.read mode ⟨offset + byteLength rest, []⟩ =
      .ok (⟨.finish, Span.point (offset + byteLength rest)⟩, ⟨offset + byteLength rest, []⟩) := rfl
    simp only [textFrom, Token.skip_all h, hread]
    cases mode <;> simp [before, lexeme, behind, TokenKind.modeAfter, hnil]

theorem behind_of_ne (hmode : mode ≠ .operator) (next : LexMode → Cursor → List Char)
    (kind : TokenKind) (after : Cursor) :
    r.behind next mode kind after = next kind.modeAfter after := by
  cases mode with
  | operator => exact absurd rfl hmode
  | operand | member => rfl

/-- Of the tokens only names and literals that are split are renamed. -/
theorem lexeme_kept (hname : kind.isName = false)
    (hraw : ∀ raw, kind = .str raw true → extensions.interpolation = false) :
    r.lexeme extensions nested kind lexeme = lexeme := by
  unfold Renaming.lexeme
  split
  · cases hname
  · rename_i raw
    rw [hraw raw rfl]
    rfl
  · rfl

theorem lexeme_name (hname : kind.isName) :
    r.lexeme extensions nested kind lexeme = r.words lexeme := by
  unfold TokenKind.isName at hname
  split at hname
  · rfl
  · cases hname

variable {extensions} in
theorem lexeme_split (hi : extensions.interpolation = true) (raw lexeme : List Char) :
    r.lexeme extensions nested (.str raw true) lexeme = '"' :: (r.contents nested raw ++ ['"']) :=
  if_pos hi

/-- From every place on whole words are renamed and nothing else, and none that a word before the
place would go on with. -/
def Rewords (next : LexMode → Cursor → List Char) : Prop :=
  ∀ inside mode (at_ : Cursor), (inside = true → mode = .operator) →
    Reworded inside at_.rest (next mode at_)

variable {next : LexMode → Cursor → List Char}

/-- Behind an operator symbol a clause may be renamed. -/
theorem reworded_behindSymbol (hnext : Rewords next) (symbol : String) (after : Cursor) :
    Reworded false after.rest (r.behindSymbol next symbol after) := by
  have goes (mode : LexMode) (at_ : Cursor) : Reworded false at_.rest (next mode at_) :=
    hnext false mode at_ (by simp)
  unfold behindSymbol
  split
  · exact goes _ _
  · split
    · exact goes _ _
    · split
      · rename_i clause hclause
        obtain ⟨written, hwritten, hname, hlaid⟩ := Signature.lambda?_laid hclause
        rw [hwritten, before_append]
        exact r.reworded (turns_clause hname.1) hlaid (goes _ _)
      · exact goes _ _
    · exact goes _ _

theorem reworded_behind (hnext : Rewords next) (mode : LexMode) (kind : TokenKind)
    (after : Cursor) : Reworded false after.rest (r.behind next mode kind after) := by
  unfold behind
  split
  · exact hnext _ _ _ (by simp)
  · exact r.reworded_behindSymbol hnext _ _
  · exact hnext _ _ _ (by simp)

/-- Behind a token that is kept either no name begins, or the token does not end inside a word. -/
theorem reworded_behind_kept (hnext : Rewords next)
    (h : Token.Taken mode at_ token after gap lexeme) (hk : token.kind ≠ .finish)
    (hname : token.kind.isName = false) :
    ∃ inside, Reworded inside after.rest (r.behind next mode token.kind after) ∧
      (inside = false → EndsWord lexeme) := by
  by_cases hmode : mode = .operator ∨ token.kind.modeAfter = .operand
  · obtain ⟨found, -, hfound, hread⟩ := h.read
    exact ⟨false, r.reworded_behind hnext _ _ _,
      fun _ => Token.endsWord_of_read hread hk hname hmode hfound⟩
  · rw [not_or] at hmode
    refine ⟨true, ?_, by simp⟩
    rw [behind_of_ne r hmode.1]
    have hafter : token.kind.modeAfter = .operator := by
      have hmember := token.kind.modeAfter_ne_member
      revert hmember hmode
      cases token.kind.modeAfter <;> simp
    exact hnext _ _ _ fun _ => hafter

/-- A word with marks before it and, if it is called, a parenthesis behind it. -/
theorem reworded_name {lookup : Lookup} {marks rest' : List Char} {call : Bool}
    (hm : Token.Marks lookup marks) (hn : IsName name)
    (h : Reworded (!call) rest rest') (hends : Token.NameEnds call rest) :
    Reworded false (marks ++ (name ++ (opener call ++ rest)))
        (marks ++ (r.renamed name ++ (opener call ++ rest'))) ∧
      Token.NameEnds call rest' := by
  constructor
  · refine Reworded.behindSigns (.name hn (r.isName_renamed hn) hends.endsName ?_) (signs_marks hm)
    cases call with
    | true => exact .keep '(' h
    | false => exact h
  · rintro rfl
    obtain ⟨ends, hparen⟩ := hends rfl
    exact ⟨Reworded.endsName h ends, by rw [Reworded.head? h]; exact hparen⟩

/-- A renamed name token is a name token, with the renamed name. -/
theorem nameToken_renamed {text rest' : List Char} (h : NameToken mode text kind rest)
    (htext : text = lexeme ++ rest)
    (hrest : ∀ inside, (inside = true → kind.modeAfter = .operator) → Reworded inside rest rest') :
    Reworded false text (r.words lexeme ++ rest') ∧
      NameToken mode (r.words lexeme ++ rest') (kind.rename r.name) rest' := by
  cases h with
  | @operand lookup marks name _ call hm hn hends hplain =>
    obtain rfl : marks ++ (name ++ opener call) = lexeme :=
      List.append_cancel_right (by simpa using htext)
    have hbehind := hrest (!call) (by cases call <;> simp [TokenKind.modeAfter])
    obtain ⟨hreworded, hends'⟩ := r.reworded_name hm hn hbehind hends
    rw [words_token r hm hn, List.append_assoc, List.append_assoc]
    refine ⟨hreworded, ?_⟩
    have hname := NameToken.operand hm (r.isName_renamed hn) hends' fun hmarks hcall =>
      r.plain_renamed hn (hplain hmarks hcall)
    rw [ofList_renamed] at hname
    exact hname
  | @member name _ call hn hends =>
    obtain rfl : name ++ opener call = lexeme := List.append_cancel_right (by simpa using htext)
    have hbehind := hrest (!call) (by cases call <;> simp [TokenKind.modeAfter])
    obtain ⟨hreworded, hends'⟩ := r.reworded_name .none hn hbehind hends
    have hword : r.words ([] ++ (name ++ opener call)) = [] ++ (r.renamed name ++ opener call) :=
      r.words_token .none hn
    simp only [List.nil_append] at hreworded hword
    rw [hword, List.append_assoc]
    refine ⟨hreworded, ?_⟩
    have hname := NameToken.member (r.isName_renamed hn) hends'
    rw [ofList_renamed] at hname
    exact hname

/-- From the lexeme of a token on a text is renamed. -/
theorem reworded_lexeme (hnext : Rewords next)
    (hnested : ∀ source, Reworded false source (nested source))
    (h : Token.Taken mode at_ token after gap lexeme) (hk : token.kind ≠ .finish) {inside : Bool}
    (hinside : inside = true → mode = .operator) :
    Reworded inside (lexeme ++ after.rest) (r.lexeme extensions nested token.kind lexeme ++
      r.behind next mode token.kind after) := by
  obtain ⟨found, -, hfound, hread⟩ := h.read
  have outside (hmode : mode ≠ .operator) : inside = false :=
    Bool.eq_false_iff.mpr fun hin => hmode (hinside hin)
  obtain ⟨kind, span⟩ := token
  cases hname : kind.isName with
  | true =>
    have hword := Token.nameToken_of_read hread hname
    rw [hfound] at hword
    have hmode : mode ≠ .operator := hword.ne_operator
    rw [outside hmode, behind_of_ne r hmode, lexeme_name r extensions hname]
    exact (r.nameToken_renamed hword rfl fun inside hin => hnext inside _ after hin).1
  | false =>
    by_cases hraw : ∀ raw, kind = .str raw true → extensions.interpolation = false
    · -- The lexeme is kept, and what follows it is renamed.
      rw [lexeme_kept r extensions hname hraw]
      obtain ⟨inside', hbehind, hends⟩ := r.reworded_behind_kept hnext h hk hname
      cases inside' with
      | true => exact hbehind.behind _ _
      | false => exact hbehind.behindWord (hends rfl) h.nonempty _
    · push Not at hraw
      obtain ⟨raw, rfl, hinterpolation⟩ := hraw
      obtain ⟨rfl, htext, -⟩ := Token.quoted_of_read hread
      obtain rfl : lexeme = '"' :: (raw ++ ['"']) :=
        List.append_cancel_right (hfound.symm.trans (htext.trans (by simp)))
      have hcontents := r.reworded_contents hnested raw
      rw [outside (by simp), lexeme_split r (by simpa using hinterpolation)]
      have quoted := (hcontents.weaken false).append (show isNamePart '"' = false by decide)
        (r.reworded_behind hnext .operand (.str raw true) after)
      simpa using Reworded.keep '"' quoted

/-- From every place on a renaming changes whole words only. -/
theorem rewords_textFrom (fuel : Nat) : Rewords (r.textFrom extensions fuel) := by
  induction fuel with
  | zero => exact fun _ _ _ _ => .refl _ _
  | succ fuel ih =>
    intro inside mode at_ hinside
    cases hnext : Token.next mode at_ with
    | error e =>
      rw [textFrom_error r extensions hnext]
      exact .refl _ _
    | ok found =>
      obtain ⟨token, after⟩ := found
      by_cases hk : token.kind = .finish
      · rw [textFrom_gap r extensions (Token.gap_of_finish hnext hk).1]
        exact .refl _ _
      · obtain ⟨gap, lexeme, h⟩ := Token.taken_of_next hnext hk
        have hnested (source : List Char) :
            Reworded false source (r.sources extensions fuel source) :=
          ih false .operand (Cursor.start source) (by simp)
        have lexemes {inside : Bool} (hinside : inside = true → mode = .operator) :=
          r.reworded_lexeme extensions ih hnested h hk hinside
        rw [textFrom_taken r extensions h, h.rest]
        by_cases hgap : gap = []
        · rw [hgap]
          exact lexemes hinside
        · exact (lexemes (by simp)).behindWord h.endsWord hgap inside

/-- **A renaming changes whole words only.** -/
theorem reworded_text (text : String) :
    Reworded false text.toList (r.text extensions text).toList := by
  have body := r.rewords_textFrom extensions ((bodyOf extensions text).rest.length + 1) false
    .operand (bodyOf extensions text) (by simp)
  unfold Renaming.text
  rw [String.toList_ofList]
  cases hd : definitionOf? extensions text with
  | none =>
    have start : bodyOf extensions text = Cursor.start text.toList := by
      unfold bodyOf
      rw [hd]
    rw [start] at body ⊢
    simpa [before, Cursor.start, words, wordsFrom] using body
  | some d =>
    have start : bodyOf extensions text = d.body := by
      unfold bodyOf
      rw [hd]
    rw [start] at body ⊢
    obtain ⟨lexemes, written, htext, hname, hparams, hheads, hlaid⟩ :=
      Signature.definition?_laid (definitionOf?_eq_some.mp hd).2
    have turns := turns_heads hname.1 (List.forall_mem_map.mpr hparams) hheads
    rw [htext, before_append]
    exact r.reworded turns hlaid body

end Renaming

end TagExpr
