import TagExpr.Proofs.Token.Lossless

/-!
# Where a token begins

From any place on, a text is a gap and then either what no filler stands before (`Clear`), the end
of the text among that, or a block comment that is never closed (`Unclosed`). What is read is
decided by what follows the gap.
-/

namespace TagExpr

/-- A place that is found in a text is one of its places. -/
theorem Cursor.exists_of_seek? {base offset : Nat} {text : List Char} {found : Cursor}
    (h : seek? offset ⟨base, text⟩ = some found) :
    ∃ before, text = before ++ found.rest ∧ base + byteLength before = offset ∧
      found.offset = offset := by
  induction text generalizing base with
  | nil =>
    rw [seek?] at h
    split at h
    case isTrue hbase =>
      cases h
      exact ⟨[], rfl, hbase, hbase⟩
    case isFalse => cases h
  | cons c text ih =>
    rw [seek?] at h
    split at h
    case isTrue hbase =>
      cases h
      exact ⟨[], rfl, hbase, hbase⟩
    case isFalse =>
      obtain ⟨before, rfl, hlength, hfound⟩ := ih h
      exact ⟨c :: before, rfl, by rw [byteLength, ← Nat.add_assoc, hlength], hfound⟩

namespace Token

variable {mode : LexMode} {atEnd : Bool} {gap tail text : List Char}

/-- Neither a separator nor a comment stands at the head of the text. -/
structure Clear (text : List Char) : Prop where
  separator : ∀ c ∈ text.head?, Text.isSeparator c = false
  line : ¬ "//".toList <+: text
  block : ¬ "/*".toList <+: text

/-- A block comment stands at the head of the text and is never closed. -/
def Unclosed (text : List Char) : Prop :=
  ∃ body, text = '/' :: '*' :: body ∧ ¬ "*/".toList <:+: body

theorem clear_nil : Clear [] := ⟨by simp, by simp, by simp⟩

theorem Clear.startsIn (h : Clear text) (hne : text ≠ []) (mode : LexMode) :
    StartsIn mode text := by
  obtain ⟨c, rest, rfl⟩ := List.exists_cons_of_ne_nil hne
  refine startsIn_cons (h.separator c rfl) ?_
  rintro - rfl d hd
  cases rest with
  | nil => cases hd
  | cons e rest =>
    cases hd
    refine ⟨?_, ?_⟩ <;> rintro rfl
    · exact h.line ⟨rest, rfl⟩
    · exact h.block ⟨rest, rfl⟩

theorem clear_of_startsIn (h : StartsIn .operand text) : Clear text := by
  refine ⟨fun c hc => ?_, ?_, ?_⟩
  · cases text with
    | nil => cases hc
    | cons d rest =>
      cases hc
      exact not_separator_of_starts h
  · rintro ⟨rest, rfl⟩
    exact not_comment_of_starts (.inl rfl) rest h
  · rintro ⟨rest, rfl⟩
    exact not_comment_of_starts (.inr rfl) rest h

/-! ## Behind a gap -/

/-- A gap that does not need the end of the text is skipped whatever follows it. -/
theorem Gap.leaves (h : Gap mode false gap) : Leaves .outside gap := by
  generalize hend : false = atEnd at h
  induction h with
  | nil => exact leaves_nil
  | separator hc _ ih => exact (ih hend).cons fun _ _ => skipFiller_separator hc _ _
  | @line _ body gap _ hbody _ ih =>
    have comment : Leaves .outside ('/' :: '/' :: (body ++ ['\n'])) := fun offset rest =>
      (leaves_line hbody (offset + 2) rest).trans (by
        rw [byteLength, byteLength, ← Nat.add_assoc, ← Nat.add_assoc]
        rfl)
    simpa using comment.append (ih hend)
  | @block _ body gap _ hbody _ ih => simpa using (leaves_comment hbody).append (ih hend)
  | lastLine => cases hend

/-- What follows a gap is read where it stands. -/
theorem next_of_clear (hm : mode ≠ .member) (hgap : Gap mode tail.isEmpty gap) (htail : Clear tail)
    (offset : Nat) :
    next mode ⟨offset, gap ++ tail⟩ = read mode ⟨offset + byteLength gap, tail⟩ := by
  cases tail with
  | nil =>
    simp only [List.append_nil, next, skip_all hgap, bind, Except.bind]
  | cons c rest =>
    exact next_of_gap (skips_of_leaves hm hgap.leaves) (htail.startsIn (by simp) mode) offset

theorem skipFiller_unclosed {body : List Char} (h : ¬ "*/".toList <:+: body) (opened offset : Nat) :
    skipFiller (.block opened) offset body = .error opened := by
  induction body generalizing offset with
  | nil => rfl
  | cons c body ih =>
    rw [skipFiller_block]
    · exact ih (fun hin => h (hin.trans (List.suffix_cons c body).isInfix)) _
    · intro more hmore
      exact h (hmore ▸ ⟨[], more, rfl⟩)

/-- A comment that is never closed is an error. -/
theorem next_of_unclosed (hm : mode ≠ .member) (hgap : Gap mode false gap) (htail : Unclosed tail)
    (offset : Nat) : next mode ⟨offset, gap ++ tail⟩ = .error ⟨.unterminatedComment,
      Span.ofRange (offset + byteLength gap) (offset + byteLength gap + 2)⟩ := by
  obtain ⟨body, rfl, hbody⟩ := htail
  have opens : skipFiller .outside (offset + byteLength gap) ('/' :: '*' :: body) =
      .error (offset + byteLength gap) := skipFiller_unclosed hbody _ _
  have whole : skip mode ⟨offset, gap ++ '/' :: '*' :: body⟩ = .error ⟨.unterminatedComment,
      Span.ofRange (offset + byteLength gap) (offset + byteLength gap + 2)⟩ := by
    rw [skips_of_leaves hm hgap.leaves]
    cases mode with
    | member => exact absurd rfl hm
    | operand | operator => simp only [skip, opens]
  simp only [next, whole, bind, Except.bind]

/-! ## Every text is a gap and what follows it -/

/-- Where skipping fails, the comment that is skipped is not closed, or a gap ends where one opens
that is not. -/
theorem unclosed_of_skipFiller (hm : mode ≠ .member) {filler : Filler} {offset opened : Nat}
    (h : skipFiller filler offset text = .error opened) :
    ((∃ start, filler = .block start) ∧ ¬ "*/".toList <:+: text) ∨
      ∃ gap tail, text = gap ++ tail ∧ GapFrom mode false filler gap ∧ Unclosed tail := by
  fun_induction skipFiller filler offset text with
  | case1 => exact .inl ⟨⟨_, rfl⟩, by simp⟩
  | case2 | case3 | case11 => cases h
  | case4 offset rest ih =>
    rcases ih h with ⟨⟨_, hblock⟩, -⟩ | ⟨gap, tail, rfl, hgap, htail⟩
    · cases hblock
    · exact .inr ⟨'\n' :: gap, tail, rfl, .inl ⟨[], gap, rfl, by simp, hgap⟩, htail⟩
  | case5 offset c rest hc ih =>
    rcases ih h with ⟨⟨_, hblock⟩, -⟩ | ⟨gap, tail, rfl, hgap, htail⟩
    · cases hblock
    · exact .inr ⟨c :: gap, tail, rfl, hgap.cons_line hc, htail⟩
  | case6 _ offset rest ih =>
    rcases ih h with ⟨⟨_, hblock⟩, -⟩ | ⟨gap, tail, rfl, hgap, htail⟩
    · cases hblock
    · exact .inr ⟨'*' :: '/' :: gap, tail, rfl, ⟨[], gap, rfl, by simp, hgap⟩, htail⟩
  | case7 start offset c rest hc ih =>
    have step {more : List Char} (hmore : ¬ "*/".toList <:+: more)
        (hstar : c = '*' → ∀ after, more ≠ '/' :: after) : ¬ "*/".toList <:+: c :: more := by
      intro hin
      rcases List.infix_cons_iff.mp hin with ⟨after, hafter⟩ | hin
      · obtain ⟨rfl, hslash⟩ := List.cons.inj hafter
        exact hstar rfl after hslash.symm
      · exact hmore hin
    rcases ih h with ⟨-, hopen⟩ | ⟨_, tail, rfl, ⟨body, gap, rfl, hbody, hgap⟩, htail⟩
    · exact .inl ⟨⟨_, rfl⟩, step hopen fun hstar after hafter => hc after hstar hafter⟩
    · refine .inr ⟨c :: (body ++ '*' :: '/' :: gap), tail, rfl, ⟨c :: body, gap, rfl, ?_, hgap⟩,
        htail⟩
      exact step hbody fun hstar after hafter =>
        hc (after ++ '*' :: '/' :: gap ++ tail) hstar (by rw [hafter]; rfl)
  | case8 offset rest ih =>
    rcases ih h with ⟨⟨_, hblock⟩, -⟩ | ⟨_, tail, rfl, hline, htail⟩
    · cases hblock
    · rcases hline with ⟨body, gap, rfl, hbody, hgap⟩ | ⟨hend, -⟩
      · exact .inr ⟨'/' :: '/' :: (body ++ '\n' :: gap), tail, rfl, .line hm hbody hgap, htail⟩
      · cases hend
  | case9 offset rest ih =>
    rcases ih h with ⟨-, hopen⟩ | ⟨_, tail, rfl, ⟨body, gap, rfl, hbody, hgap⟩, htail⟩
    · exact .inr ⟨[], '/' :: '*' :: rest, rfl, .nil, rest, rfl, hopen⟩
    · exact .inr ⟨'/' :: '*' :: (body ++ '*' :: '/' :: gap), tail, rfl, .block hm hbody hgap, htail⟩
  | case10 offset c rest _ _ hsep ih =>
    rcases ih h with ⟨⟨_, hblock⟩, -⟩ | ⟨gap, tail, rfl, hgap, htail⟩
    · cases hblock
    · exact .inr ⟨c :: gap, tail, rfl, .separator hsep hgap, htail⟩

/-- Every text is a gap and then what no filler stands before, or a comment that is never closed. -/
theorem exists_place (hm : mode ≠ .member) (text : List Char) :
    ∃ gap tail, text = gap ++ tail ∧
      (Gap mode tail.isEmpty gap ∧ Clear tail ∨ Gap mode false gap ∧ Unclosed tail) := by
  cases hskip : skipFiller .outside 0 text with
  | error opened =>
    rcases unclosed_of_skipFiller hm hskip with ⟨⟨_, hblock⟩, -⟩ | ⟨gap, tail, htext, hgap, htail⟩
    · cases hblock
    · exact ⟨gap, tail, htext, .inr ⟨hgap, htail⟩⟩
  | ok found =>
    obtain ⟨gap, htext, hgap⟩ := gapFrom_of_skipFiller hm hskip
    refine ⟨gap, found.rest, htext, .inl ⟨hgap, ?_⟩⟩
    by_cases hne : found.rest = []
    · rw [hne]
      exact clear_nil
    · obtain ⟨_, -, -, hstarts⟩ := skipFiller_leaves hskip hne
      exact clear_of_startsIn hstarts

/-- An offset that no place of the text has gives the end of the text. -/
theorem at?_of_no_place {text : List Char} {offset : Nat} (mode : LexMode)
    (h : ∀ before rest, text = before ++ rest → byteLength before ≠ offset) :
    at? mode text offset = .ok ⟨.finish, Span.point (byteLength text)⟩ := by
  unfold at?
  split
  case h_1 found hseek =>
    obtain ⟨before, htext, hoffset, -⟩ := Cursor.exists_of_seek? hseek
    exact absurd (by rw [← hoffset, Nat.zero_add]) (h before found.rest htext)
  case h_2 => rfl

end Token

end TagExpr
