import TagExpr.Proofs.Literal.Segments
import TagExpr.Proofs.Token.Letters
import TagExpr.Proofs.Token.Spelling

/-!
# Shorthands spelt out

A name among the parts of a literal is written behind a dollar sign, and it may be put in braces.
The literal then has the same parts but for that one, which becomes an expression whose source is
the name (`split_speltOut`), and it ends where it did (`Token.quotedExtent_shorthand`).
-/

namespace TagExpr

namespace Literal

open Signature (IsName EndsName)

variable {offset place : Nat} {p q raw raw' x y gap name before behind : List Char}
  {texts parts parts' : List Segment}

/-! ## Names as sources -/

theorem paired_of_isName (hn : IsName name) : Paired name := by
  have none : '\\' ∉ name := fun h => by cases hn.part _ h
  have paired := Paired.nil.prepend none
  rwa [List.append_nil] at paired

theorem matched_of_parts (h : ∀ c ∈ name, Token.isNamePart c) : Matched name := by
  induction name with
  | nil => exact .nil
  | cons c name ih =>
    have hpart := h c List.mem_cons_self
    refine .plain (fun hc => ?_) (ih fun d hd => h d (List.mem_cons_of_mem _ hd))
    simp only [List.mem_cons, List.not_mem_nil, or_false] at hc
    rcases hc with rfl | rfl | rfl | rfl | rfl <;> cases hpart

theorem not_blank_of_isName (hn : IsName name) : name.all Text.isBlank = false := by
  obtain ⟨c, more, rfl, hc, -⟩ := hn.cons
  have hblank := Token.isBlank_of_isLetter
    (Token.isLetter_of_isNamePart (Token.isNamePart_of_isNameStart hc))
  rw [List.all_cons, hblank, Bool.false_and]

/-! ## Spelling out -/

/-- The segments are the same but for their places, and but for shorthands of the name: in their
places the name may be the source of an expression. -/
inductive Segment.Respelt (name : List Char) : Segment → Segment → Prop
  | text (text : List Char) : Respelt name (.text text) (.text text)
  | expression (source : List Char) (place place' : Nat) :
      Respelt name (.expression source place) (.expression source place')
  | name (other : List Char) (place place' : Nat) :
      Respelt name (.name other place) (.name other place')
  | shorthand (place place' : Nat) : Respelt name (.name name place) (.expression name place')

theorem Prose.respelt (h : Prose gap texts) (name : List Char) :
    List.Forall₂ (Segment.Respelt name) texts texts := by
  cases h with
  | empty => exact .nil
  | text => exact .cons (.text _) .nil

theorem Prose.paired (h : Prose gap texts) : Paired gap := by
  obtain ⟨-, text, htext, -⟩ := h.unescape
  exact paired_of_unescapeFrom htext

theorem Prose.name_not_mem (h : Prose gap texts) : .name name place ∉ texts := by
  cases h <;> simp

/-- A literal has the same parts wherever it stands. -/
theorem Parts.moved (h : Parts offset raw parts) (name : List Char) (offset' : Nat) :
    ∃ parts', Parts offset' raw parts' ∧ List.Forall₂ (Segment.Respelt name) parts parts' := by
  induction h generalizing offset' with
  | prose h => exact ⟨_, .prose h, h.respelt name⟩
  | expression h hmatched hblank _ ih =>
    obtain ⟨parts', hparts, same⟩ := ih _
    exact ⟨_, .expression h hmatched hblank hparts,
      List.rel_append (h.respelt name) (.cons (.expression ..) same)⟩
  | name h hn hends _ ih =>
    obtain ⟨parts', hparts, same⟩ := ih _
    exact ⟨_, .name h hn hends hparts, List.rel_append (h.respelt name) (.cons (.name ..) same)⟩

theorem zip_append_cons {a a' : Segment} {front back back' : List Segment} :
    (front ++ a :: back).zip (front ++ a' :: back') =
      front.zip front ++ (a, a') :: back.zip back' := by
  rw [List.zip_append rfl, List.zip_cons_cons]

/-- The contents of a literal with a shorthand of the name, which may be spelt out. -/
structure SpeltOut (offset : Nat) (name : List Char) (place : Nat) (before behind : List Char)
    (parts : List Segment) : Prop where
  paired : Paired before
  isName : IsName name
  parts : ∃ parts' place',
    Parts offset (before ++ '$' :: '\x7b' :: (name ++ '\x7d' :: behind)) parts' ∧
      List.Forall₂ (Segment.Respelt name) parts parts' ∧
      (.name name place, .expression name place') ∈ parts.zip parts'

/-- Where a name is among the parts, it may be spelt out. -/
theorem Parts.speltOut (h : Parts offset raw parts) (hmem : .name name place ∈ parts) :
    ∃ before behind, raw = before ++ '$' :: (name ++ behind) ∧
      place = offset + byteLength before + 1 ∧ SpeltOut offset name place before behind parts := by
  induction h with
  | prose h => exact absurd hmem h.name_not_mem
  | @expression offset gap source rest texts _ h hmatched hblank _ ih =>
    obtain ⟨before, behind, rfl, rfl, hpaired, hn, parts', place', hparts, same, hzip⟩ :=
      ih (by simpa [h.name_not_mem] using hmem)
    have hparts := Parts.expression h hmatched hblank hparts
    refine ⟨gap ++ '$' :: '\x7b' :: (source ++ '\x7d' :: before), behind, by simp, ?_, ?_, hn, _,
      place', by simpa using hparts,
      List.rel_append (h.respelt name) (.cons (.expression ..) same), ?_⟩
    · have size : '$'.utf8Size = 1 ∧ '\x7b'.utf8Size = 1 ∧ '\x7d'.utf8Size = 1 := ⟨rfl, rfl, rfl⟩
      simp only [byteLength, byteLength_append]
      omega
    · exact h.paired.append (.plain (by decide) (.plain (by decide)
        (hmatched.paired.append (.plain (by decide) hpaired))))
    · simp [zip_append_cons, hzip]
  | @name offset gap other rest texts _ h hother hends hrest ih =>
    rw [List.mem_append, List.mem_cons] at hmem
    rcases hmem.resolve_left h.name_not_mem with heq | hmem
    · cases heq
      obtain ⟨parts', hparts, same⟩ := hrest.moved name _
      exact ⟨gap, rest, rfl, rfl, h.paired, hother, _, offset + byteLength gap + 2,
        .expression h (matched_of_parts hother.part) (not_blank_of_isName hother) hparts,
        List.rel_append (h.respelt name) (.cons (.shorthand ..) same), by simp [zip_append_cons]⟩
    · obtain ⟨before, behind, rfl, rfl, hpaired, hn, parts', place', hparts, same, hzip⟩ := ih hmem
      -- The name before goes on no further: a dollar sign follows it, or what did before.
      have hends' : EndsName (before ++ '$' :: '\x7b' :: (name ++ '\x7d' :: behind)) := by
        cases before <;> exact hends
      have hparts := Parts.name h hother hends' hparts
      refine ⟨gap ++ '$' :: (other ++ before), behind, by simp, ?_, ?_, hn, _, place',
        by simpa using hparts, List.rel_append (h.respelt name) (.cons (.name ..) same), ?_⟩
      · simp only [byteLength, byteLength_append, show '$'.utf8Size = 1 from rfl]
        omega
      · exact h.paired.append (.plain (by decide) ((paired_of_isName hother).append hpaired))
      · simp [zip_append_cons, hzip]

theorem eq_of_byteLength (h : p ++ x = q ++ y) (hlen : byteLength p = byteLength q) : p = q := by
  have none (part : List Char) (h : byteLength part = 0) : part = [] := by
    cases part with
    | nil => rfl
    | cons c part => exact absurd h (by have := c.utf8Size_pos; rw [byteLength]; omega)
  rcases List.append_eq_append_iff.mp h with ⟨part, rfl, -⟩ | ⟨part, rfl, -⟩ <;>
  · rw [byteLength_append] at hlen
    rw [none part (by omega), List.append_nil]

theorem split_speltOut (h : split (before ++ '$' :: (name ++ behind)) = .ok parts)
    (hmem : .name name (byteLength before + 1) ∈ parts) :
    Paired before ∧ IsName name ∧
      ∃ parts' place', split (before ++ '$' :: '\x7b' :: (name ++ '\x7d' :: behind)) = .ok parts' ∧
        List.Forall₂ (Segment.Respelt name) parts parts' ∧
        (.name name (byteLength before + 1), .expression name place') ∈ parts.zip parts' := by
  obtain ⟨found, hparts, rfl⟩ := split_eq_ok_iff.mp h
  have hne : found ≠ [] := by
    rintro rfl
    simp [whole] at hmem
  rw [whole, if_neg hne] at hmem ⊢
  obtain ⟨p, x, hraw, hplace, hpaired, hn, parts', place', hparts', same, hzip⟩ :=
    hparts.speltOut hmem
  obtain rfl : before = p := eq_of_byteLength hraw (by omega)
  have hrest := List.append_cancel_left hraw
  obtain rfl : behind = x := List.append_cancel_left (List.cons.inj hrest).2
  refine ⟨hpaired, hn, parts', place', split_eq_ok_iff.mpr ⟨parts', hparts', ?_⟩, same, hzip⟩
  have hne' : parts' ≠ [] := by
    rintro rfl
    cases same
    exact hne rfl
  rw [whole, if_neg hne']

/-- The contents of a literal with a shorthand of the name, and the same with the name in braces. -/
inductive Shorthand (name : List Char) : List Char → List Char → Prop
  | intro {before behind : List Char} {parts : List Segment} :
      split (before ++ '$' :: (name ++ behind)) = .ok parts →
      .name name (byteLength before + 1) ∈ parts →
      Shorthand name (before ++ '$' :: (name ++ behind))
        (before ++ '$' :: '\x7b' :: (name ++ '\x7d' :: behind))

/-- A shorthand is not all that there is to split. -/
theorem ne_text_of_respelt (same : List.Forall₂ (Segment.Respelt name) parts parts')
    (hmem : .name name place ∈ parts) (text : List Char) :
    parts ≠ [.text text] ∧ parts' ≠ [.text text] := by
  constructor
  · rintro rfl
    simp at hmem
  · rintro rfl
    cases same with
    | cons hpart hrest =>
      cases hrest
      cases hpart
      simp at hmem

theorem Shorthand.length (h : Shorthand name raw raw') : raw'.length = raw.length + 2 := by
  obtain ⟨-, -⟩ := h
  simp only [List.length_append, List.length_cons]
  omega

end Literal

/-! ## The token -/

namespace Token

variable {p x t raw raw' name rest : List Char} {n : Nat}

/-- Before the literal there is what is skipped. -/
theorem gap_of_quoted {c after : Cursor} {span : Span}
    (h : next .operand c = .ok (⟨.str raw true, span⟩, after)) :
    ∃ gap, c.rest = gap ++ '"' :: (raw ++ '"' :: after.rest) ∧ Skips .operand gap ∧
      quotedExtent '"' true (raw ++ '"' :: after.rest) = ⟨raw.length + 1, true⟩ := by
  obtain ⟨found, hskip, hread⟩ := next_eq h
  obtain ⟨-, hrest, hext⟩ := quoted_of_read hread
  obtain ⟨offset, text⟩ := c
  obtain ⟨gap, rfl, skips, -⟩ := skip_gap hskip (by simp [hrest])
  exact ⟨gap, by rw [hrest], skips, hext⟩

theorem next_quoted {gap : List Char} (skips : Skips .operand gap)
    (hext : quotedExtent '"' true (raw ++ '"' :: rest) = ⟨raw.length + 1, true⟩) (offset : Nat) :
    ∃ span after, next .operand ⟨offset, gap ++ '"' :: (raw ++ '"' :: rest)⟩ =
      .ok (⟨.str raw true, span⟩, after) ∧ after.rest = rest := by
  have starts := @startsIn_cons .operand '"' (raw ++ '"' :: rest) rfl (by simp)
  rw [next_of_gap skips starts]
  exact read_quoted rfl hext

/-- What stands before the quote is passed, whatever follows it. -/
theorem quotedExtent_behind (hp : Literal.Paired p) (hn : 0 < n)
    (h : quotedExtent '"' true (p ++ x) = ⟨p.length + n, true⟩) :
    quotedExtent '"' true x = ⟨n, true⟩ ∧ ∀ t m, quotedExtent '"' true t = ⟨m, true⟩ →
      quotedExtent '"' true (p ++ t) = ⟨p.length + m, true⟩ := by
  induction hp with
  | nil =>
    simp only [List.nil_append, List.length_nil, Nat.zero_add] at h ⊢
    exact ⟨h, fun _ _ ht => ht⟩
  | @escaped c p _ ih =>
    have hlen (m : Nat) : ('\\' :: c :: p).length + m = 2 + (p.length + m) := by
      simp only [List.length_cons]
      omega
    simp only [List.cons_append, quotedExtent, hlen] at h ⊢
    split at h
    case isTrue => exact absurd (congrArg Extent.closed h) Bool.false_ne_true
    case isFalse hc =>
      obtain ⟨here, pass⟩ := ih ((after_eq rfl).mp h)
      exact ⟨here, fun t m ht => by rw [if_neg hc, after_eq rfl, pass t m ht]⟩
  | @plain c p hc _ ih =>
    have hlen (m : Nat) : (c :: p).length + m = 1 + (p.length + m) := by
      rw [List.length_cons]
      omega
    simp only [List.cons_append, quotedExtent_plain hc, Bool.not_true, Bool.and_false,
      Bool.false_eq_true, if_false, hlen] at h ⊢
    split at h
    case isTrue =>
      have hlength : 1 = 1 + (p.length + n) := congrArg Extent.length h
      omega
    case isFalse hquote =>
      obtain ⟨here, pass⟩ := ih ((after_eq rfl).mp h)
      exact ⟨here, fun t m ht => by rw [if_neg hquote, after_eq rfl, pass t m ht]⟩

/-- The literal ends where it did. -/
theorem quotedExtent_shorthand (h : Literal.Shorthand name raw raw')
    (hext : quotedExtent '"' true (raw ++ '"' :: rest) = ⟨raw.length + 1, true⟩) :
    quotedExtent '"' true (raw' ++ '"' :: rest) = ⟨raw'.length + 1, true⟩ := by
  obtain @⟨before, behind, parts, hsplit, hmem⟩ := h
  obtain ⟨hpaired, hn, -⟩ := Literal.split_speltOut hsplit hmem
  have through {word : List Char} (hquote : '"' ∉ word) (hescape : '\\' ∉ word) (n : Nat) :
      quotedExtent '"' true (word ++ (behind ++ '"' :: rest)) = ⟨word.length + n, true⟩ ↔
        quotedExtent '"' true (behind ++ '"' :: rest) = ⟨n, true⟩ := by
    rw [quotedExtent_through hquote hescape, after_eq rfl]
  have unquoted : '"' ∉ name := fun hc => by cases hn.part _ hc
  have unescaped : '\\' ∉ name := fun hc => by cases hn.part _ hc
  have written : before ++ '$' :: (name ++ behind) ++ '"' :: rest =
      before ++ ('$' :: name ++ (behind ++ '"' :: rest)) := by simp
  have respelt : before ++ '$' :: '\x7b' :: (name ++ '\x7d' :: behind) ++ '"' :: rest =
      before ++ ('$' :: '\x7b' :: (name ++ ['\x7d']) ++ (behind ++ '"' :: rest)) := by simp
  have hlength : (before ++ '$' :: (name ++ behind)).length + 1 =
      before.length + (('$' :: name).length + (behind.length + 1)) := by
    simp only [List.length_append, List.length_cons]
    omega
  have hlength' : (before ++ '$' :: '\x7b' :: (name ++ '\x7d' :: behind)).length + 1 =
      before.length + (('$' :: '\x7b' :: (name ++ ['\x7d'])).length + (behind.length + 1)) := by
    simp only [List.length_append, List.length_cons, List.length_nil]
    omega
  rw [written, hlength] at hext
  obtain ⟨here, pass⟩ := quotedExtent_behind hpaired (by omega) hext
  rw [respelt, hlength']
  exact pass _ _ ((through (by simp [unquoted]) (by simp [unescaped]) _).mpr
    ((through (by simp [unquoted]) (by simp [unescaped]) _).mp here))

end Token

end TagExpr
