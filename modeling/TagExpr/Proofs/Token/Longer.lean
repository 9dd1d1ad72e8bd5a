import TagExpr.Proofs.Token.Places
import TagExpr.Proofs.Token.Signatures

/-!
# Texts that go on

A text may go on otherwise from some place on, where no lexeme reaches past it (`Keeps`). The tokens
before that place are found again, with the same spans (`next_altered`). Where a text goes on behind
its end, these are all its tokens except the one for the end (`next_on`), and its clauses are found
again, too (`Signature.lambda?_on`).
-/

namespace TagExpr

/-! ## Places -/

/-- The same place in a text that goes on. -/
def Cursor.on (c : Cursor) (more : List Char) : Cursor := ⟨c.offset, c.rest ++ more⟩

@[simp] theorem Cursor.offset_on (c : Cursor) (more : List Char) :
    (c.on more).offset = c.offset := rfl

@[simp] theorem Cursor.rest_on (c : Cursor) (more : List Char) :
    (c.on more).rest = c.rest ++ more := rfl

/-- Two places of texts that are the same up to where the first one goes on with `x` and the second
one with `t`. -/
def Cursor.Altered (x t : List Char) (c c' : Cursor) : Prop :=
  ∃ q, c.rest = q ++ x ∧ c' = ⟨c.offset, q ++ t⟩

namespace Cursor

variable {x t q more : List Char} {c c' d d' : Cursor}

theorem altered_on (c : Cursor) (more : List Char) : c.Altered [] more (c.on more) :=
  ⟨c.rest, (List.append_nil _).symm, rfl⟩

theorem Altered.eq_on (h : c.Altered [] more c') : c' = c.on more := by
  obtain ⟨q, hq, rfl⟩ := h
  rw [List.append_nil] at hq
  rw [on, hq]

/-- Places are told apart by what follows them. -/
theorem Reaches.altered (h : c.Reaches d) (h' : c'.Reaches d') (alt : c.Altered x t c')
    (hd : d.rest = q ++ x) (hd' : d'.rest = q ++ t) : d.Altered x t d' := by
  obtain ⟨passed, hrest, hoffset⟩ := h
  obtain ⟨passed', hrest', hoffset'⟩ := h'
  obtain ⟨whole, hwhole, rfl⟩ := alt
  rw [hwhole, hd, ← List.append_assoc] at hrest
  obtain rfl := List.append_cancel_right hrest
  rw [hd', List.append_assoc] at hrest'
  obtain rfl := List.append_cancel_right hrest'
  obtain ⟨offset, _⟩ := d'
  cases hd'
  exact ⟨q, hd, Cursor.mk.injEq .. |>.mpr ⟨hoffset'.trans hoffset.symm, rfl⟩⟩

theorem Reaches.on (h : c.Reaches d) (h' : (c.on more).Reaches d')
    (rest : d'.rest = d.rest ++ more) : d' = d.on more :=
  (h.altered h' (c.altered_on more) (List.append_nil _).symm rest).eq_on

end Cursor

namespace Token

variable {mode : LexMode} {c c' after : Cursor} {token : Token} {x t q more : List Char}

/-! ## Tokens -/

theorem read_altered (keeps : ∀ p, Keeps p x t) (h : read mode c = .ok (token, after))
    (hk : token.kind ≠ .finish) (alt : c.Altered x t c') (hx : after.rest = q ++ x) :
    ∃ after', read mode c' = .ok (token, after') ∧ after.Altered x t after' := by
  obtain ⟨p, hp, hc'⟩ := alt
  obtain ⟨offset, text⟩ := c
  obtain rfl : text = p ++ x := hp
  obtain ⟨span, after', again, rest⟩ := read_cut (keeps p) h hk hx
  obtain ⟨reach, here⟩ := read_reaches h
  obtain ⟨reach', here'⟩ := read_reaches again
  obtain ⟨q, hq, rfl⟩ := reach.altered reach' ⟨p, rfl, rfl⟩ hx rest
  obtain ⟨kind, _⟩ := token
  cases here
  cases here'
  rw [hc']
  exact ⟨_, again, q, hq, rfl⟩

/-- **A token before the place where the text goes on otherwise is found again.** -/
theorem next_altered (keeps : ∀ p, Keeps p x t) (h : next mode c = .ok (token, after))
    (hk : token.kind ≠ .finish) (alt : c.Altered x t c') (hx : x <:+ after.rest) :
    ∃ after', next mode c' = .ok (token, after') ∧ after.Altered x t after' := by
  obtain ⟨found, hskip, hread⟩ := next_eq h
  obtain ⟨-, hfinish, -⟩ | ⟨hne, count, hpos, -, hafter⟩ := read_cases hread
  · exact absurd hfinish hk
  obtain ⟨q, hq⟩ := hx
  obtain ⟨p, hp, rfl⟩ := alt
  obtain ⟨offset, text⟩ := c
  obtain ⟨gap, rfl, skips, starts⟩ := skip_gap hskip hne
  obtain ⟨passed, hpassed, hoffset⟩ := skip_reaches hskip
  obtain rfl := List.append_cancel_right hpassed
  -- What is skipped and the lexeme stand before the place.
  have lexeme : found.rest = found.rest.take count ++ q ++ x := by
    rw [List.append_assoc, hq, hafter]
    exact (List.take_append_drop count found.rest).symm
  have before : p = gap ++ (found.rest.take count ++ q) := by
    refine List.append_cancel_right (hp.symm.trans ?_)
    rw [List.append_assoc, ← lexeme]
  have nonempty : found.rest.take count ++ q ≠ [] := by
    have := List.length_pos_iff.mpr hne
    simp only [ne_eq, List.append_eq_nil_iff, List.take_eq_nil_iff, hne, or_false, not_and]
    omega
  have starts' := startsIn_cut (keeps []).head nonempty (lexeme ▸ starts)
  have again := next_of_gap skips starts' offset
  rw [← List.append_assoc, ← before, ← hoffset] at again
  rw [again]
  exact read_altered keeps hread hk ⟨_, lexeme, rfl⟩ hq.symm

/-- A token is found again where the text goes on behind its end. -/
theorem next_on (stops : Stops more) (h : next mode c = .ok (token, after))
    (hk : token.kind ≠ .finish) : next mode (c.on more) = .ok (token, after.on more) := by
  obtain ⟨after', again, alt⟩ :=
    next_altered (fun p => stops.keeps p []) h hk (c.altered_on more) List.nil_suffix
  rw [again, alt.eq_on]

/-- A line comment at the end of the text is ended by a new line. -/
theorem Gap.line_end {gap : List Char} (h : Gap mode true gap) :
    Gap mode false (gap ++ ['\n']) := by
  generalize atEnd : true = b at h
  induction h with
  | nil => exact .separator rfl .nil
  | separator hc _ ih => exact .separator hc (ih atEnd)
  | line hm hbody _ ih =>
    rw [List.append_assoc]
    exact .line hm hbody (ih atEnd)
  | block hm hbody _ ih =>
    rw [List.append_assoc]
    exact .block hm hbody (ih atEnd)
  | lastLine hm hbody => exact .line hm hbody .nil

/-- Where the text was at its end, the parenthesis on the next line is found. -/
theorem next_on_end (h : next .operator c = .ok (token, after)) (hk : token.kind = .finish) :
    ∃ span after', next .operator (c.on ['\n', ')']) = .ok (⟨.operator ")", span⟩, after') ∧
      after'.rest = [] := by
  obtain ⟨found, hskip, hread⟩ := next_eq h
  obtain ⟨offset, text⟩ := c
  obtain ⟨gap, rfl, hgap⟩ := gap_of_skip hskip
  have hrest : found.rest = [] := by
    obtain ⟨hrest, -⟩ | ⟨-, count, -, spelt, -⟩ := read_cases hread
    · exact hrest
    · rw [hk, Spelt] at spelt
      split at spelt <;> cases spelt
  rw [hrest] at hgap ⊢
  have closed : Gap .operator [')'].isEmpty (gap ++ ['\n']) := hgap.line_end
  have clear : Clear [')'] := clear_of_startsIn (startsIn_cons rfl fun _ slash => by cases slash)
  have again := next_of_clear (show LexMode.operator ≠ .member by decide) closed clear offset
  have text_eq : (⟨offset, gap ++ []⟩ : Cursor).on ['\n', ')'] =
      ⟨offset, gap ++ ['\n'] ++ [')']⟩ := by
    simp [Cursor.on]
  rw [text_eq, again]
  exact ⟨_, _, rfl, rfl⟩

end Token

/-! ## Clauses -/

namespace Signature

variable {c : Cursor} {more written : List Char} {name : List Char}

/-- A clause ends in its arrow. -/
theorem getLast?_of_laid (h : Laid [name, clauseArrow] written) : written.getLast? = some '>' := by
  obtain ⟨gap, after, rfl, -, h⟩ := laid_cons_iff.mp h
  obtain ⟨gap', last, rfl, -, h⟩ := laid_cons_iff.mp h
  cases h
  simp [clauseArrow]

/-- What has no arrow makes no clause, and it leaves those that there are. -/
theorem lambda?_on (c : Cursor) (none : '>' ∉ more) :
    (lambda? c = .none ∧ lambda? (c.on more) = .none) ∨
      ∃ clause clause', lambda? c = some clause ∧ lambda? (c.on more) = some clause' ∧
        clause'.name = clause.name ∧ clause'.body = clause.body.on more := by
  cases first : lambda? c with
  | some clause =>
    obtain ⟨written, hrest, names, laid⟩ := lambda?_laid first
    have hrest' : (c.on more).rest = written ++ (clause.body.rest ++ more) := by
      rw [Cursor.rest_on, hrest, List.append_assoc]
    obtain ⟨clause', again, hname, hbody⟩ := lambda?_of_laid hrest' names laid
    exact .inr ⟨clause, clause', rfl, again, hname.trans String.ofList_toList,
      (lambda?_reaches first).on (lambda?_reaches again) hbody⟩
  | none =>
    refine .inl ⟨rfl, ?_⟩
    cases again : lambda? (c.on more) with
    | none => rfl
    | some clause =>
      obtain ⟨written, hrest, names, laid⟩ := lambda?_laid again
      -- The arrow stands before the end of the text, and so does all of the clause.
      obtain ⟨rest, hwritten⟩ : written <+: c.rest := by
        rcases List.append_eq_append_iff.mp hrest with ⟨part, rfl, hmore⟩ | ⟨part, hc, -⟩
        · rcases List.eq_nil_or_concat part with rfl | ⟨init, d, rfl⟩
          · simp
          · have last := getLast?_of_laid laid
            simp only [List.concat_eq_append, List.getLast?_append, List.getLast?_singleton,
              Option.some_or, Option.some_inj] at last
            exact absurd (by simp [hmore, last]) none
        · exact ⟨part, hc.symm⟩
      obtain ⟨clause', found, -⟩ := lambda?_of_laid hwritten.symm names laid
      cases first.symm.trans found

end Signature

end TagExpr
