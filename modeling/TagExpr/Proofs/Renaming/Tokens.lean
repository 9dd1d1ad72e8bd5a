import TagExpr.Proofs.Literal.Splitting
import TagExpr.Proofs.Placing.Track
import TagExpr.Proofs.Renaming.Changes

/-!
# The tokens of a renamed text

A renamed text has the tokens of the text, with the names in them renamed (`next_renamed`): names
end where they did, literals end at the same quotes, and no other token reaches into a name,
whatever name it is.

A literal whose names are renamed has the parts of the literal: the same texts, the renamed names,
and the renamed sources (`split_contents`). Escapes are kept, a renamed source ends at the same
brace, and it is blank only if the source is.
-/

namespace TagExpr.Renaming

open Signature (IsName EndsName)
open Token (isNamePart EndsWord NameToken)

variable (r : Renaming) (extensions : Extensions)

/-- A token with the names in it renamed. -/
def kind (nested : List Char → List Char) (kind : TokenKind) : TokenKind :=
  match kind with
  | .str raw true => if extensions.interpolation then .str (r.contents nested raw) true else kind
  | _ => kind.rename r.name

variable {nested : List Char → List Char}
  {next : LexMode → Cursor → List Char} {fuel : Nat} {mode : LexMode} {at_ at' after : Cursor}
  {token : Token} {kind : TokenKind} {gap lexeme : List Char}

theorem kind_name (hname : kind.isName) : r.kind extensions nested kind = kind.rename r.name := by
  unfold TokenKind.isName at hname
  split at hname
  · rfl
  · cases hname

theorem kind_kept (hname : kind.isName = false)
    (hraw : ∀ raw, kind = .str raw true → extensions.interpolation = false) :
    r.kind extensions nested kind = kind := by
  unfold Renaming.kind
  split
  · rename_i raw
    rw [hraw raw rfl]
    rfl
  · cases kind with
    | ident i =>
      obtain ⟨kind, lookup, call⟩ := i
      cases kind with
      | name name => cases hname
      | _ => rfl
    | _ => rfl

variable {extensions} in
theorem kind_split (hi : extensions.interpolation = true) (raw : List Char) :
    r.kind extensions nested (.str raw true) = .str (r.contents nested raw) true := if_pos hi

/-- Behind the same text the same token is kept, if what follows is renamed. -/
theorem next_kept {inside : Bool} {rest' : List Char}
    (h : Token.Taken mode at_ token after gap lexeme)
    (hnext : Token.next mode at_ = .ok (token, after))
    (hk : token.kind ≠ .finish) (hr : Reworded inside after.rest rest')
    (hends : inside = false → EndsWord lexeme) (hat : at'.rest = gap ++ (lexeme ++ rest')) :
    ∃ span after', Token.next mode at' = .ok (⟨token.kind, span⟩, after') ∧
      after'.rest = rest' := by
  obtain ⟨offset, rest⟩ := at_
  obtain ⟨offset', text⟩ := at'
  have hrest : rest = gap ++ (lexeme ++ after.rest) := h.rest
  have hat : text = gap ++ (lexeme ++ rest') := hat
  subst hrest hat
  -- The token is found before the first name that is another one.
  have cut {q x t : List Char} (hq : after.rest = q ++ x) (ht : rest' = q ++ t)
      (keeps : ∀ p, p <:+ gap ++ lexeme ++ q → p ≠ [] → Token.Keeps p x t) :
      ∃ span after', Token.next mode ⟨offset', gap ++ (lexeme ++ rest')⟩ =
        .ok (⟨token.kind, span⟩, after') ∧ after'.rest = rest' := by
    have hnext : Token.next mode ⟨offset, gap ++ lexeme ++ q ++ x⟩ = .ok (token, after) := by
      simpa [hq] using hnext
    obtain ⟨span, after', hfound, hafter⟩ := Token.next_cut keeps hnext hk hq
    exact ⟨span, after', by simpa [ht] using hfound, hafter.trans ht.symm⟩
  rcases hr.first_change with rfl | ⟨q, x, t, hq, ht, hx, ht', hword, hinside⟩
  · refine cut (List.append_nil _).symm (List.append_nil _).symm fun p _ _ => ⟨fun _ _ _ => rfl, ?_⟩
    simp
  · refine cut hq ht fun p hp hne => Token.exchange_keeps hne (EndsWord.suffix ?_ hp hne) hx ht'
    by_cases hnil : q = []
    · rw [hnil, List.append_nil]
      exact (hends (hinside hnil)).append h.nonempty
    · exact hword.append hnil

/-- **The next token of a renamed text** is the renamed token, and what follows is renamed. -/
theorem next_renamed (hnext : Token.next mode at_ = .ok (token, after))
    (hat : at'.rest = r.textFrom extensions (fuel + 1) mode at_) :
    ∃ span after', Token.next mode at' =
        .ok (⟨r.kind extensions (r.sources extensions fuel) token.kind, span⟩, after') ∧
      after'.rest = r.behind (r.textFrom extensions fuel) mode token.kind after := by
  by_cases hk : token.kind = .finish
  · obtain ⟨hgap, hnil⟩ := Token.gap_of_finish hnext hk
    obtain ⟨offset, rest⟩ := at'
    rw [textFrom_gap r extensions hgap] at hat
    obtain rfl : rest = at_.rest := hat
    have behind : r.behind (r.textFrom extensions fuel) mode token.kind after = [] := by
      have ends : r.textFrom extensions fuel .operator after = after.rest :=
        r.textFrom_gap extensions (hnil ▸ Token.Gap.nil)
      rw [hk, ← hnil, ← ends]
      cases mode <;> rfl
    rw [behind, hk]
    simp only [Token.next, Token.skip_all hgap, bind, Except.bind]
    exact ⟨_, _, rfl, rfl⟩
  obtain ⟨gap, lexeme, h⟩ := Token.taken_of_next hnext hk
  obtain ⟨found, -, hfound, hread⟩ := h.read
  have rewords := r.rewords_textFrom extensions fuel
  rw [textFrom_taken r extensions h] at hat
  obtain ⟨offset, text⟩ := at'
  have hat : text = gap ++ _ := hat
  subst hat
  obtain ⟨kind, span⟩ := token
  cases hname : kind.isName with
  | true =>
    have hword := Token.nameToken_of_read hread hname
    rw [hfound] at hword
    have hmode := hword.ne_operator
    have renamed := (r.nameToken_renamed hword rfl fun inside hin => rewords inside _ after hin).2
    rw [behind_of_ne r hmode, lexeme_name r extensions hname, kind_name r extensions hname,
      Token.next_of_gap h.skips renamed.startsIn]
    exact renamed.read rfl
  | false =>
    by_cases hraw : ∀ raw, kind = .str raw true → extensions.interpolation = false
    · rw [lexeme_kept r extensions hname hraw, kind_kept r extensions hname hraw]
      obtain ⟨inside, hr, hends⟩ := r.reworded_behind_kept rewords h hk hname
      exact next_kept h hnext hk hr hends rfl
    · push Not at hraw
      obtain ⟨raw, rfl, hinterpolation⟩ := hraw
      obtain ⟨rfl, htext, hextent⟩ := Token.quoted_of_read hread
      have hinterpolation : extensions.interpolation = true := by simpa using hinterpolation
      have hnested (source : List Char) :
          Reworded false source (r.sources extensions fuel source) :=
        rewords false .operand (Cursor.start source) (by simp)
      have hcontents := r.reworded_contents hnested raw
      have hextent' := (hcontents.quotedExtent after.rest
        (r.behind (r.textFrom extensions fuel) .operand (.str raw true) after)).1 hextent
      have starts (rest : List Char) : Token.StartsIn .operand ('"' :: rest) :=
        Token.startsIn_cons rfl fun _ hslash => by cases hslash
      rw [lexeme_split r hinterpolation, kind_split r hinterpolation, List.cons_append,
        Token.next_of_gap h.skips (starts _)]
      exact Token.read_quoted (by simp) hextent'

end TagExpr.Renaming

/-! ## The parts of a renamed literal -/

namespace TagExpr

namespace Renaming

open Signature (IsName EndsName)
open Token (isNamePart)

variable (r : Renaming) (extensions : Extensions)

/-- Nothing is said of the places. -/
def anyPlace : SpanRelation := ⟨fun _ _ => True, fun _ _ => trivial⟩

/-- The second parse is that of a renamed text. -/
def likeness : Likeness := (anyPlace.likeness extensions).renaming r.name r.injective

variable {nested : List Char → List Char} {start start' : Nat}

/-- Parts of a literal and those of the renamed one. -/
abbrev SegmentsAlike (nested : List Char → List Char) (start start' : Nat) :
    List Literal.Segment → List Literal.Segment → Prop :=
  List.Forall₂ (Literal.Segment.Alike (r.likeness extensions)
    (fun source source' _ _ => source' = nested source) start start')

theorem segmentsAlike_flush {parts parts' : List Literal.Segment}
    (h : r.SegmentsAlike extensions nested start start' parts parts') (gathered : List Char) :
    r.SegmentsAlike extensions nested start start' (Literal.flush gathered parts)
      (Literal.flush gathered parts') := by
  unfold Literal.flush
  split
  · exact h
  · exact .cons (.text _) h

/-! ## What the contents of a literal become -/

theorem contents_escape {char : Char} {count : Nat} {rest : List Char}
    (h : Literal.escape 0 rest = .ok (char, count)) :
    r.contents nested ('\\' :: rest) =
      '\\' :: (rest.take (count - 1) ++ r.contentsFrom nested (count - 1) rest) := by
  rw [contents, contentsFrom, if_pos rfl, h]

/-- The braces of an interpolation and its source. -/
theorem contentsFrom_braces (source rest : List Char) :
    r.contentsFrom nested (source.length + 2) ('\x7b' :: (source ++ '\x7d' :: rest)) =
      r.contents nested rest := by
  have hskip : r.contentsFrom nested _ _ = r.contents nested rest :=
    r.contentsFrom_skip ('\x7b' :: (source ++ ['\x7d'])) rest
  simpa using hskip

theorem contents_expression {source rest : List Char}
    (h : Literal.interpolated? 0 none (source ++ '\x7d' :: rest) = some source) :
    r.contents nested ('$' :: '\x7b' :: (source ++ '\x7d' :: rest)) =
      '$' :: '\x7b' :: (nested source ++ '\x7d' :: r.contents nested rest) := by
  have hne : '$' ≠ '\\' := by decide
  rw [contents, contentsFrom, if_neg hne, if_pos rfl]
  simp only [List.head?_cons, if_true, List.drop_one, List.tail_cons, h, contentsFrom_braces]

theorem contents_name {name rest : List Char} (hn : IsName name) (hends : EndsName rest) :
    r.contents nested ('$' :: (name ++ rest)) =
      '$' :: (r.renamed name ++ r.contents nested rest) := by
  have hne : '$' ≠ '\\' := by decide
  have hword := Token.takeWhile_run hn.part hends
  obtain ⟨c, more, rfl, hc, -⟩ := hn.cons
  have hbrace : c ≠ '\x7b' :=
    Token.isNamePart_ne (Token.isNamePart_of_isNameStart hc) (by decide)
  rw [contents, contentsFrom, if_neg hne, if_pos rfl]
  simp only [List.cons_append, List.head?_cons, if_neg hbrace, if_pos hc] at hword ⊢
  rw [hword, ← r.contentsFrom_skip (c :: more) rest]
  rfl

theorem contents_plain {c : Char} {rest : List Char} (hc : c ≠ '\\')
    (hdollar : c = '$' → ∀ d ∈ rest.head?, d ≠ '\x7b' ∧ Token.isNameStart d = false) :
    r.contents nested (c :: rest) = c :: r.contents nested rest := by
  rw [contents, contentsFrom, if_neg hc]
  split
  case isFalse => rfl
  case isTrue hdollar' =>
    split
    case h_1 hhead =>
      rw [List.head?_eq_none_iff.mp hhead]
      rfl
    case h_2 next hhead =>
      obtain ⟨hbrace, hstart⟩ := hdollar hdollar' next hhead
      rw [if_neg hbrace, if_neg (by simp [hstart])]
      rfl

theorem splitFrom_contents (hnested : ∀ source, Reworded false source (nested source))
    {skip offset : Nat} {gathered raw : List Char} {parts : List Literal.Segment}
    (h : Literal.splitFrom skip offset gathered raw = .ok parts) (offset' : Nat) :
    ∃ parts', Literal.splitFrom 0 offset' gathered (r.contentsFrom nested skip raw) = .ok parts' ∧
      r.SegmentsAlike extensions nested start start' parts parts' := by
  have plain {c : Char} {rest gathered : List Char} {parts : List Literal.Segment} (hc : c ≠ '\\')
      (hdollar : c = '$' → ∀ d ∈ rest.head?, d ≠ '\x7b' ∧ Token.isNameStart d = false)
      (ih : ∀ offset', ∃ parts', Literal.splitFrom 0 offset' (c :: gathered)
          (r.contentsFrom nested 0 rest) = .ok parts' ∧
        r.SegmentsAlike extensions nested start start' parts parts') (offset' : Nat) :
      ∃ parts', Literal.splitFrom 0 offset' gathered (r.contents nested (c :: rest)) = .ok parts' ∧
        r.SegmentsAlike extensions nested start start' parts parts' := by
    have hhead := (r.reworded_contents hnested rest).head?
    rw [r.contents_plain hc hdollar]
    rw [← hhead] at hdollar
    rw [Literal.splitFrom_plain hc hdollar]
    exact ih _
  fun_induction Literal.splitFrom skip offset gathered raw generalizing parts offset' with
  | case1 =>
    cases h
    exact ⟨_, rfl, r.segmentsAlike_flush extensions .nil _⟩
  | case2 offset gathered c rest skip ih => exact ih h _
  | case3 offset gathered rest ih =>
    obtain ⟨⟨char, count⟩, hescape, hrest⟩ := Literal.ok_of_bind h
    obtain ⟨hescape', -⟩ := Literal.escape_take hescape 0 (rest.drop (count - 1))
    rw [List.take_append_drop] at hescape'
    obtain ⟨htake, hlength⟩ :=
      Literal.escape_take hescape offset' (r.contentsFrom nested (count - 1) rest)
    have hskip := Literal.splitFrom_skip (char :: gathered) (rest.take (count - 1))
      (r.contentsFrom nested (count - 1) rest) (offset' + 1)
    rw [hlength] at hskip
    show ∃ parts', Literal.splitFrom 0 offset' gathered (r.contents nested _) = _ ∧ _
    rw [r.contents_escape hescape', Literal.splitFrom, if_pos rfl, htake]
    show ∃ parts', Literal.splitFrom (count - 1) _ _ _ = _ ∧ _
    rw [hskip]
    exact ih char count hrest _
  | case4 offset gathered rest hhead _ ih =>
    exact plain (by decide) (fun _ d hd => by rw [hhead] at hd; cases hd) (ih h) offset'
  | case5 | case6 => cases h
  | case7 offset gathered rest source hsource hblank _ hhead ih =>
    obtain ⟨segments, hrest, heq⟩ := Literal.ok_of_bind h
    obtain ⟨tail, rfl⟩ := List.head?_eq_some_iff.mp hhead
    obtain ⟨after, hafter⟩ := Literal.closed_of_interpolated? hsource
    obtain rfl : tail = source ++ '\x7d' :: after := hafter
    show ∃ parts', Literal.splitFrom 0 offset' gathered (r.contents nested _) = _ ∧ _
    rw [r.contents_expression hsource]
    cases heq
    have hsource' :=
      ((hnested source).interpolated? (n := ⟨0, none⟩) (by simp [Literal.Nesting.Plain])
        after (r.contents nested after)).1 hsource
    have hblank' : (nested source).all Text.isBlank = false := by
      simpa using (hnested source).exists_not_blank (by simpa using hblank)
    obtain ⟨parts', hparts, halike⟩ := ih hrest (offset' + byteLength (nested source) + 3)
    rw [contentsFrom_braces] at hparts
    rw [Literal.splitFrom_expression hsource' hblank', hparts]
    exact ⟨_, rfl, r.segmentsAlike_flush extensions (.cons (.expression rfl) halike) gathered⟩
  | case8 offset gathered rest next hhead hbrace hstart =>
    rename_i name _ ih
    obtain ⟨segments, hrest, heq⟩ := Literal.ok_of_bind h
    cases heq
    obtain ⟨word, after, rfl, hn, hends, hword⟩ := Literal.dollar_name hhead hstart
    have hname : name = word := hword
    clear_value name
    subst hname
    have hends' := (r.reworded_contents hnested after).endsName hends
    show ∃ parts', Literal.splitFrom 0 offset' gathered (r.contents nested _) = _ ∧ _
    obtain ⟨parts', hparts, halike⟩ := ih hrest (offset' + 1 + byteLength (r.renamed name))
    rw [contentsFrom_skip] at hparts
    rw [r.contents_name hn hends, Literal.splitFrom_name (r.isName_renamed hn) hends', hparts]
    have named : String.ofList (r.renamed name) = r.name (String.ofList name) :=
      ofList_renamed r name
    exact ⟨_, rfl, r.segmentsAlike_flush extensions (.cons (.name named trivial) halike) gathered⟩
  | case9 offset gathered rest next hhead hbrace hstart _ ih =>
    refine plain (by decide) (fun _ d hd => ?_) (ih h) offset'
    rw [hhead] at hd
    cases hd
    exact ⟨hbrace, by simpa using hstart⟩
  | case10 offset gathered c rest hescape hdollar ih =>
    exact plain hescape (fun hd => absurd hd hdollar) (ih h) offset'

/-- **The parts of a renamed literal** are those of the literal, with the names in them renamed. -/
theorem split_contents (hnested : ∀ source, Reworded false source (nested source))
    {raw : List Char} {parts : List Literal.Segment} (h : Literal.split raw = .ok parts) :
    ∃ parts', Literal.split (r.contents nested raw) = .ok parts' ∧
      r.SegmentsAlike extensions nested start start' parts parts' := by
  obtain ⟨found, hfound, hparts⟩ := Literal.ok_of_bind h
  obtain ⟨found', hfound', halike⟩ := r.splitFrom_contents extensions hnested hfound 0
  have hsplit : Literal.splitFrom 0 0 [] (r.contents nested raw) = .ok found' := hfound'
  simp only [Literal.split, hsplit]
  cases halike with
  | nil =>
    cases hparts
    exact ⟨_, rfl, .cons (.text []) .nil⟩
  | cons hpart hparts' =>
    cases hparts
    exact ⟨_, rfl, .cons hpart hparts'⟩

end Renaming

end TagExpr
