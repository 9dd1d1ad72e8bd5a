import TagExpr.Proofs.Literal.Pairing

/-!
# The segments of a literal

A literal is text and interpolations in turns, and its segments are those (`Parts`): every text
between two interpolations with its escapes replaced, the source up to the matching brace, the
longest name behind a dollar sign. Where nothing is interpolated a literal is split into the one
text that replacing its escapes gives, and a literal that the lexer has read ends in no backslash
that takes nothing (`segments_of_literal`).
-/

namespace TagExpr.Literal

open Signature (IsName EndsName)

variable {offset skip count start : Nat} {char c : Char} {e : LexError}
  {p gap raw rest text gathered source : List Char} {texts segments parts : List Segment}

/-! ## Replacing escapes -/

theorem unescapeFrom_append (hskip : skip ≤ p.length) (h : unescapeFrom skip offset p = .ok text)
    (offset' : Nat) (rest : List Char) : unescapeFrom skip offset' (p ++ rest) =
      (unescapeFrom 0 (offset' + byteLength p) rest).map (text ++ ·) := by
  induction p generalizing skip offset offset' text with
  | nil =>
    obtain rfl := Nat.le_zero.mp hskip
    cases h
    show unescapeFrom 0 offset' rest = (unescapeFrom 0 offset' rest).map ([] ++ ·)
    cases unescapeFrom 0 offset' rest <;> rfl
  | cons c p ih =>
    cases skip with
    | succ skip =>
      rw [List.cons_append, unescapeFrom, ih (Nat.le_of_succ_le_succ hskip) h, byteLength,
        Nat.add_assoc]
    | zero =>
      rw [unescapeFrom] at h
      rw [List.cons_append, unescapeFrom, byteLength, ← Nat.add_assoc]
      split at h
      case isTrue hc =>
        obtain ⟨⟨char, count⟩, hescape, h⟩ := ok_of_bind h
        obtain ⟨inner, hinner, heq⟩ := ok_of_bind h
        cases heq
        subst hc
        rw [if_pos rfl, escape_append hescape]
        show (do return char :: (← unescapeFrom (count - 1) (offset' + 1) (p ++ rest))) = _
        rw [ih (length_of_escape hescape) hinner]
        show _ = (unescapeFrom 0 (offset' + 1 + byteLength p) rest).map _
        cases unescapeFrom 0 (offset' + 1 + byteLength p) rest <;> rfl
      case isFalse hc =>
        obtain ⟨inner, hinner, heq⟩ := ok_of_bind h
        cases heq
        rw [if_neg hc, ih (Nat.zero_le _) hinner]
        cases unescapeFrom 0 (offset' + c.utf8Size + byteLength p) rest <;> rfl

theorem unescape_append {more : List Char} (h : unescape p = .ok text)
    (hrest : unescape rest = .ok more) : unescape (p ++ rest) = .ok (text ++ more) := by
  have hlater := unescapeFrom_append (Nat.zero_le _) hrest (0 + byteLength p) []
  rw [List.append_nil] at hlater
  rw [unescape, unescapeFrom_append (Nat.zero_le _) h, hlater]
  show Except.ok (text ++ (more ++ [])) = _
  rw [List.append_nil]

theorem unescape_escape (h : escape offset rest = .ok (char, count)) :
    unescape ('\\' :: rest.take (count - 1)) = .ok [char] := by
  obtain ⟨htake, hlength⟩ := escape_take h 0 []
  have hpassed : ∀ (taken : List Char) (offset : Nat),
      unescapeFrom taken.length offset taken = .ok [] := by
    intro taken
    induction taken with
    | nil => exact fun _ => rfl
    | cons c taken ih => exact fun _ => ih _
  rw [List.append_nil] at htake
  have hpassed := hpassed (rest.take (count - 1)) (0 + 1)
  rw [hlength] at hpassed
  rw [unescape, unescapeFrom, if_pos rfl, htake]
  show (do return char :: (← unescapeFrom (count - 1) (0 + 1) (rest.take (count - 1)))) = _
  rw [hpassed]
  rfl

theorem unescape_single (hc : c ≠ '\\') : unescape [c] = .ok [c] := by
  rw [unescape, unescapeFrom, if_neg hc]
  rfl

/-- A text that stands for nothing is empty. -/
theorem eq_nil_of_unescape (h : unescape p = .ok []) : p = [] := by
  cases p with
  | nil => rfl
  | cons c p =>
    rw [unescape, unescapeFrom] at h
    split at h
    case isTrue =>
      obtain ⟨⟨char, count⟩, -, h⟩ := ok_of_bind h
      obtain ⟨inner, -, heq⟩ := ok_of_bind h
      cases heq
    case isFalse =>
      obtain ⟨inner, -, heq⟩ := ok_of_bind h
      cases heq

theorem paired_of_unescapeFrom (h : unescapeFrom skip offset p = .ok text) :
    Paired (p.drop skip) := by
  fun_induction unescapeFrom skip offset p generalizing text with
  | case1 =>
    rw [List.drop_nil]
    exact .nil
  | case2 offset c rest skip ih => exact ih h
  | case3 offset rest ih =>
    obtain ⟨⟨char, count⟩, hescape, h⟩ := ok_of_bind h
    obtain ⟨inner, hinner, -⟩ := ok_of_bind h
    obtain ⟨c, digits, htake, hdigits⟩ := exists_taken hescape
    rw [List.drop_zero, ← List.take_append_drop (count - 1) rest, htake]
    exact .escaped c ((ih count hinner).prepend (not_mem_of_isHexDigit hdigits (by decide)))
  | case4 offset c rest hc ih =>
    obtain ⟨inner, hinner, -⟩ := ok_of_bind h
    exact .plain hc (ih hinner)

/-! ## Where interpolations begin -/

/-- A dollar sign that begins an interpolation stands in the text, and no backslash takes it. -/
inductive Interpolates : List Char → Prop
  | here {d : Char} {rest : List Char} : d = '\x7b' ∨ Token.isNameStart d →
      Interpolates ('$' :: d :: rest)
  | escaped (c : Char) {rest : List Char} : Interpolates rest → Interpolates ('\\' :: c :: rest)
  | plain {c : Char} {rest : List Char} : c ≠ '\\' → Interpolates rest → Interpolates (c :: rest)

theorem not_interpolates_short (h : p.length ≤ 1) : ¬ Interpolates p := by
  intro hp
  cases hp with
  | here | escaped => simp at h
  | plain _ hrest =>
    obtain rfl := List.length_eq_zero_iff.mp (Nat.le_zero.mp (Nat.le_of_succ_le_succ h))
    cases hrest

theorem Interpolates.append (h : Interpolates p) (rest : List Char) :
    Interpolates (p ++ rest) := by
  induction h with
  | here hd => exact .here hd
  | escaped c _ ih => exact .escaped c ih
  | plain hc _ ih => exact .plain hc ih

theorem Interpolates.tail (h : Interpolates (c :: rest)) (hbackslash : c ≠ '\\')
    (hdollar : c ≠ '$') : Interpolates rest := by
  cases h with
  | here => exact absurd rfl hdollar
  | escaped => exact absurd rfl hbackslash
  | plain _ hrest => exact hrest

/-- No brace and no name stands behind a dollar sign that begins no interpolation. -/
theorem plain_behind_dollar (h : ¬ Interpolates ('$' :: rest)) :
    ∀ d ∈ rest.head?, d ≠ '\x7b' ∧ Token.isNameStart d = false := by
  intro d hd
  obtain ⟨tail, rfl⟩ := List.head?_eq_some_iff.mp hd
  refine ⟨fun hbrace => h (.here (.inl hbrace)), ?_⟩
  rw [Bool.eq_false_iff]
  exact fun hname => h (.here (.inr hname))

theorem Interpolates.behind (h : Interpolates (p ++ rest)) (hbackslash : '\\' ∉ p)
    (hdollar : '$' ∉ p) : Interpolates rest := by
  induction p with
  | nil => exact h
  | cons c p ih =>
    rw [List.mem_cons, not_or] at hbackslash hdollar
    exact ih (h.tail (Ne.symm hbackslash.1) (Ne.symm hdollar.1)) hbackslash.2 hdollar.2

theorem Interpolates.prepend (h : Interpolates rest) (hp : '\\' ∉ p) :
    Interpolates (p ++ rest) := by
  induction p with
  | nil => exact h
  | cons c p ih =>
    rw [List.mem_cons, not_or] at hp
    exact .plain (Ne.symm hp.1) (ih hp.2)

theorem Interpolates.of_escape {more : List Char} (h : Interpolates (rest.drop (count - 1) ++ more))
    (hescape : escape offset rest = .ok (char, count)) :
    Interpolates ('\\' :: rest ++ more) := by
  obtain ⟨c, digits, htake, hdigits⟩ := exists_taken hescape
  have hmore := h.prepend (not_mem_of_isHexDigit hdigits (by decide))
  rw [← List.append_assoc] at hmore
  rw [← List.take_append_drop (count - 1) rest, htake]
  exact .escaped c hmore

/-- An interpolation begins in a text, with the last of its characters, or behind it. -/
theorem Paired.interpolates_append (hp : Paired p) (h : Interpolates (p ++ rest)) :
    Interpolates p ∨
      (∃ d ∈ rest.head?, (d = '\x7b' ∨ Token.isNameStart d) ∧ Interpolates (p ++ [d])) ∨
      Interpolates rest := by
  induction hp with
  | nil => exact .inr (.inr h)
  | escaped c _ ih =>
    cases h with
    | escaped _ hrest =>
      exact (ih hrest).imp (.escaped c) (.imp_left fun ⟨d, hd, hbegins, hin⟩ =>
        ⟨d, hd, hbegins, .escaped c hin⟩)
    | plain hne => exact absurd rfl hne
  | @plain c more hc _ ih =>
    generalize htext : c :: more ++ rest = whole at h
    cases h with
    | @here d tail hbegins =>
      obtain ⟨rfl, htail⟩ := List.cons.inj htext
      cases more with
      | nil =>
        obtain rfl : rest = d :: tail := htail
        exact .inr (.inl ⟨d, rfl, hbegins, .here hbegins⟩)
      | cons x more =>
        obtain ⟨rfl, -⟩ := List.cons.inj htail
        exact .inl (.here hbegins)
    | escaped => exact absurd (List.cons.inj htext).1 hc
    | plain hne hrest =>
      obtain ⟨rfl, rfl⟩ := List.cons.inj htext
      exact (ih hrest).imp (.plain hc) (.imp_left fun ⟨d, hd, hbegins, hin⟩ =>
        ⟨d, hd, hbegins, .plain hc hin⟩)

theorem Paired.interpolates (hp : Paired p) (h : Interpolates (p ++ c :: rest)) :
    Interpolates (p ++ [c]) ∨ Interpolates (c :: rest) := by
  rcases hp.interpolates_append h with hin | ⟨d, hd, -, hin⟩ | hrest
  · exact .inl (hin.append [c])
  · cases hd
    exact .inl hin
  · exact .inr hrest

/-! ## Text between interpolations -/

/-- Text without interpolations and the segments that it makes: none if it is empty, else its
characters with the escapes replaced. -/
inductive Prose : List Char → List Segment → Prop
  | empty : Prose [] []
  | text {gap text : List Char} : gap ≠ [] → ¬ Interpolates gap → unescape gap = .ok text →
      Prose gap [.text text]

/-- The text since the last interpolation, before what is left of the literal. -/
structure Gathers (p gathered rest : List Char) : Prop where
  unescaped : unescape p = .ok gathered.reverse
  plain : ¬ Interpolates (p ++ rest.take 1)

theorem Gathers.paired (h : Gathers p gathered rest) : Paired p :=
  paired_of_unescapeFrom h.unescaped

theorem gathers_nil (rest : List Char) : Gathers [] [] rest :=
  ⟨rfl, not_interpolates_short (List.length_take_le 1 rest)⟩

theorem Gathers.push (h : Gathers p gathered (c :: rest)) (hc : c ≠ '\\')
    (hplain : ¬ Interpolates (c :: rest.take 1)) : Gathers (p ++ [c]) (c :: gathered) rest where
  unescaped := by
    rw [List.reverse_cons]
    exact unescape_append h.unescaped (unescape_single hc)
  plain hmore := by
    rw [List.append_assoc] at hmore
    rcases h.paired.interpolates hmore with hbefore | hbehind
    · exact h.plain hbefore
    · exact hplain hbehind

theorem Gathers.escape (h : Gathers p gathered ('\\' :: rest))
    (hescape : Literal.escape offset rest = .ok (char, count)) :
    Gathers (p ++ '\\' :: rest.take (count - 1)) (char :: gathered) (rest.drop (count - 1)) where
  unescaped := by
    rw [List.reverse_cons]
    exact unescape_append h.unescaped (unescape_escape hescape)
  plain hmore := by
    obtain ⟨c, digits, htake, hdigits⟩ := exists_taken hescape
    rw [htake, List.append_assoc] at hmore
    rcases h.paired.interpolates hmore with hbefore | hbehind
    · exact h.plain hbefore
    · cases hbehind with
      | escaped _ hafter =>
        exact not_interpolates_short (List.length_take_le 1 _)
          (hafter.behind (not_mem_of_isHexDigit hdigits (by decide))
            (not_mem_of_isHexDigit hdigits (by decide)))
      | plain hne => exact absurd rfl hne

theorem flush_append (gathered : List Char) (segments : List Segment) :
    flush gathered segments = flush gathered [] ++ segments := by
  unfold flush
  split <;> rfl

theorem Gathers.prose (h : Gathers p gathered rest) : Prose p (flush gathered []) := by
  cases gathered with
  | nil =>
    obtain rfl := eq_nil_of_unescape h.unescaped
    exact .empty
  | cons c gathered =>
    refine .text ?_ (fun hp => h.plain (hp.append _)) h.unescaped
    rintro rfl
    have := Except.ok.inj h.unescaped
    simp at this

/-! ## The parts of a literal -/

/-- A literal whose contents are at `offset` and the segments that it makes. Behind each
interpolation its text goes on. -/
inductive Parts : Nat → List Char → List Segment → Prop
  | prose {offset : Nat} {gap : List Char} {texts : List Segment} :
      Prose gap texts → Parts offset gap texts
  | expression {offset : Nat} {gap source rest : List Char} {texts segments : List Segment} :
      Prose gap texts → Matched source → source.all Text.isBlank = false →
      Parts (offset + byteLength gap + byteLength source + 3) rest segments →
      Parts offset (gap ++ '$' :: '\x7b' :: (source ++ '\x7d' :: rest))
        (texts ++ .expression source (offset + byteLength gap + 2) :: segments)
  | name {offset : Nat} {gap name rest : List Char} {texts segments : List Segment} :
      Prose gap texts → IsName name → EndsName rest →
      Parts (offset + byteLength gap + 1 + byteLength name) rest segments →
      Parts offset (gap ++ '$' :: (name ++ rest))
        (texts ++ .name name (offset + byteLength gap + 1) :: segments)

/-- Only a literal without contents makes no segment, and then it stands for an empty text. -/
def whole (parts : List Segment) : List Segment := if parts = [] then [.text []] else parts

theorem parts_of_splitFrom (h : splitFrom skip offset gathered raw = .ok segments)
    (hskip : skip ≤ raw.length) (hp : Gathers p gathered (raw.drop skip))
    (hstart : offset + byteLength (raw.take skip) = start + byteLength p) :
    Parts start (p ++ raw.drop skip) segments := by
  have here {offset : Nat} {raw : List Char} : offset + byteLength (raw.take 0) = offset := by
    rw [List.take_zero, byteLength, Nat.add_zero]
  have passed (c : Char) {offset start : Nat} {p rest : List Char}
      (h : offset + byteLength ((c :: rest).take 0) = start + byteLength p) :
      offset + c.utf8Size + byteLength (rest.take 0) = start + byteLength (p ++ [c]) := by
    rw [here] at h ⊢
    simp only [byteLength_append, byteLength]
    omega
  fun_induction splitFrom skip offset gathered raw generalizing p start segments with
  | case1 =>
    cases h
    rw [List.drop_nil] at hp ⊢
    rw [List.append_nil]
    exact .prose hp.prose
  | case2 offset gathered c rest skip ih =>
    rw [List.take_succ_cons, byteLength, ← Nat.add_assoc] at hstart
    exact ih h (Nat.le_of_succ_le_succ hskip) hp hstart
  | case3 offset gathered rest ih =>
    obtain ⟨⟨char, count⟩, hescape, hrest⟩ := ok_of_bind h
    have hplace : offset + 1 + byteLength (rest.take (count - 1)) =
        start + byteLength (p ++ '\\' :: rest.take (count - 1)) := by
      rw [here] at hstart
      have size : '\\'.utf8Size = 1 := rfl
      simp only [byteLength_append, byteLength]
      omega
    have hparts := ih char count hrest (length_of_escape hescape) (Gathers.escape hp hescape) hplace
    rwa [List.append_assoc, List.cons_append, List.take_append_drop] at hparts
  | case4 offset gathered rest hhead _ ih =>
    obtain rfl := List.head?_eq_none_iff.mp hhead
    have hplain : ¬ Interpolates ['$'] := not_interpolates_short (Nat.le_refl 1)
    have hparts := ih h (Nat.zero_le _) (Gathers.push hp (by decide) hplain) (passed '$' hstart)
    rwa [List.append_assoc] at hparts
  | case5 | case6 => cases h
  | case7 offset gathered rest source hfound hblank _ hhead ih =>
    obtain ⟨segments, hrest, heq⟩ := ok_of_bind h
    cases heq
    obtain ⟨tail, rfl⟩ := List.head?_eq_some_iff.mp hhead
    obtain ⟨hmatched, after, htail⟩ := interpolated?_eq_some_iff_matched.mp hfound
    obtain rfl : tail = source ++ '\x7d' :: after := htail
    rw [here] at hstart
    rw [flush_append]
    obtain rfl := hstart
    refine .expression (Gathers.prose hp) hmatched (by simpa using hblank) ?_
    -- The braces and the source have been dealt with, and nothing is gathered behind them.
    have hbraces : '\x7b' :: (source ++ '\x7d' :: after) =
        ('\x7b' :: (source ++ ['\x7d'])) ++ after := by simp
    have hlength : source.length + 2 = ('\x7b' :: (source ++ ['\x7d'])).length := by simp
    rw [hbraces, hlength] at hrest ih
    have hplace : start + byteLength p + 1 +
        byteLength ((('\x7b' :: (source ++ ['\x7d'])) ++ after).take
          ('\x7b' :: (source ++ ['\x7d'])).length) =
        start + byteLength p + byteLength source + 3 + byteLength [] := by
      have size : '\x7b'.utf8Size = 1 ∧ '\x7d'.utf8Size = 1 := ⟨rfl, rfl⟩
      rw [List.take_left]
      simp only [byteLength, byteLength_append]
      omega
    have hparts := ih hrest (by simp) (gathers_nil _) hplace
    rwa [List.drop_left] at hparts
  | case8 offset gathered rest next hhead _ hname =>
    rename_i name _ ih
    obtain ⟨segments, hrest, heq⟩ := ok_of_bind h
    cases heq
    obtain ⟨word, after, rfl, hn, hends, hword⟩ := dollar_name hhead hname
    have hname : name = word := hword
    clear_value name
    subst hname
    rw [here] at hstart
    rw [flush_append]
    obtain rfl := hstart
    refine .name (Gathers.prose hp) hn hends ?_
    have hplace : start + byteLength p + 1 + byteLength ((name ++ after).take name.length) =
        start + byteLength p + 1 + byteLength name + byteLength [] := by
      rw [List.take_left]
      rfl
    have hparts := ih hrest (by simp) (gathers_nil _) hplace
    rwa [List.drop_left] at hparts
  | case9 offset gathered rest next hhead hbrace hname _ ih =>
    obtain ⟨tail, rfl⟩ := List.head?_eq_some_iff.mp hhead
    have hplain : ¬ Interpolates ('$' :: (next :: tail).take 1) := by
      intro hmore
      cases hmore with
      | here hbegins => exact hbegins.elim hbrace hname
      | plain _ hrest => exact not_interpolates_short (List.length_take_le 1 _) hrest
    have hparts := ih h (Nat.zero_le _) (Gathers.push hp (by decide) hplain) (passed '$' hstart)
    rwa [List.append_assoc] at hparts
  | case10 offset gathered c rest hc hdollar ih =>
    have hplain : ¬ Interpolates (c :: rest.take 1) := fun hmore =>
      not_interpolates_short (List.length_take_le 1 rest) (hmore.tail hc hdollar)
    have hparts := ih h (Nat.zero_le _) (Gathers.push hp hc hplain) (passed c hstart)
    rwa [List.append_assoc] at hparts

/-- Text without interpolations is gathered as what it stands for, before whatever follows it. -/
theorem splitFrom_append (hskip : skip ≤ p.length)
    (hplain : ¬ Interpolates (p.drop skip ++ rest.take 1))
    (hend : rest = [] ∨ ∃ text, unescapeFrom skip offset p = .ok text) (gathered : List Char) :
    splitFrom skip offset gathered (p ++ rest) = (do
      let text ← unescapeFrom skip offset p
      splitFrom 0 (offset + byteLength p) (text.reverse ++ gathered) rest) := by
  induction p generalizing skip offset gathered with
  | nil =>
    obtain rfl := Nat.le_zero.mp hskip
    rfl
  | cons c p ih =>
    cases skip with
    | succ skip =>
      rw [List.cons_append, splitFrom, unescapeFrom, byteLength, ← Nat.add_assoc]
      exact ih (Nat.le_of_succ_le_succ hskip) hplain hend gathered
    | zero =>
      rw [List.drop_zero] at hplain
      rw [byteLength, ← Nat.add_assoc]
      by_cases hc : c = '\\'
      · subst hc
        rw [unescapeFrom, if_pos rfl] at hend ⊢
        rw [List.cons_append, splitFrom, if_pos rfl]
        cases hescape : escape offset p with
        | error e =>
          rcases hend with rfl | ⟨text, htext⟩
          · rw [List.append_nil, hescape]
            rfl
          · rw [hescape] at htext
            cases htext
        | ok r =>
          obtain ⟨char, count⟩ := r
          rw [escape_append hescape]
          show splitFrom (count - 1) (offset + 1) (char :: gathered) (p ++ rest) = _
          have hlater : ¬ Interpolates (p.drop (count - 1) ++ rest.take 1) :=
            fun hmore => hplain (hmore.of_escape hescape)
          have hend : rest = [] ∨ ∃ text, unescapeFrom (count - 1) (offset + 1) p = .ok text := by
            refine hend.imp_right ?_
            rintro ⟨text, htext⟩
            obtain ⟨_, htaken, htext⟩ := ok_of_bind htext
            obtain rfl := Except.ok.inj (hescape.symm.trans htaken)
            obtain ⟨inner, hinner, -⟩ := ok_of_bind htext
            exact ⟨inner, hinner⟩
          rw [ih (length_of_escape hescape) hlater hend]
          show _ = (do
            let text ← (do return char :: (← unescapeFrom (count - 1) (offset + 1) p))
            splitFrom 0 (offset + 1 + byteLength p) (text.reverse ++ gathered) rest)
          cases unescapeFrom (count - 1) (offset + 1) p with
          | error => rfl
          | ok text =>
            show _ = splitFrom 0 _ ((char :: text).reverse ++ gathered) rest
            rw [List.reverse_cons, List.append_assoc]
            rfl
      · rw [unescapeFrom, if_neg hc] at hend ⊢
        have hdollar : c = '$' →
            ∀ d ∈ (p ++ rest).head?, d ≠ '\x7b' ∧ Token.isNameStart d = false := by
          rintro rfl
          have hhead : (p ++ rest).head? = (p ++ rest.take 1).head? := by
            rw [List.head?_append, List.head?_append, List.head?_take, if_neg Nat.one_ne_zero]
          rw [hhead]
          exact plain_behind_dollar hplain
        have hend : rest = [] ∨ ∃ text, unescapeFrom 0 (offset + c.utf8Size) p = .ok text := by
          refine hend.imp_right ?_
          rintro ⟨text, htext⟩
          obtain ⟨inner, hinner, -⟩ := ok_of_bind htext
          exact ⟨inner, hinner⟩
        rw [List.cons_append, splitFrom_plain hc hdollar,
          ih (Nat.zero_le _) (fun hmore => hplain (.plain hc hmore)) hend]
        cases unescapeFrom 0 (offset + c.utf8Size) p with
        | error => rfl
        | ok text =>
          show _ = splitFrom 0 _ ((c :: text).reverse ++ gathered) rest
          rw [List.reverse_cons, List.append_assoc]
          rfl

theorem Prose.unescape (h : Prose gap texts) :
    ¬ Interpolates gap ∧ ∃ text, Literal.unescape gap = .ok text ∧
      flush text.reverse [] = texts := by
  cases h with
  | empty => exact ⟨not_interpolates_short (Nat.zero_le 1), [], rfl, rfl⟩
  | @text _ text hne hplain htext =>
    refine ⟨hplain, text, htext, ?_⟩
    have hempty : text.reverse.isEmpty = false := by
      rw [List.isEmpty_eq_false_iff, ne_eq, List.reverse_eq_nil_iff]
      rintro rfl
      exact hne (eq_nil_of_unescape htext)
    rw [flush, hempty, List.reverse_reverse]
    rfl

/-- The text before an interpolation, or before the end, is gathered. -/
theorem splitFrom_prose (h : Prose gap texts) (hrest : ∀ c ∈ rest.head?, c = '$') (offset : Nat) :
    ∃ text : List Char, flush text.reverse [] = texts ∧ splitFrom 0 offset [] (gap ++ rest) =
      splitFrom 0 (offset + byteLength gap) text.reverse rest := by
  obtain ⟨hplain, text, htext, hflush⟩ := h.unescape
  have hoffset := unescapeFrom_append (Nat.zero_le _) htext offset []
  rw [List.append_nil] at hoffset
  have hends : ¬ Interpolates (gap ++ rest.take 1) := by
    cases rest with
    | nil => rwa [List.take_nil, List.append_nil]
    | cons c rest =>
      obtain rfl := hrest c rfl
      intro hmore
      rcases (paired_of_unescapeFrom htext).interpolates_append hmore with hbefore | hlast | hbehind
      · exact hplain hbefore
      · obtain ⟨d, hd, hbegins, -⟩ := hlast
        cases hd
        exact absurd hbegins (by decide)
      · exact not_interpolates_short (List.length_take_le 1 _) hbehind
  refine ⟨text, hflush, ?_⟩
  rw [splitFrom_append (Nat.zero_le _) hends (.inr ⟨_, hoffset⟩), hoffset]
  show splitFrom 0 _ ((text ++ []).reverse ++ []) _ = _
  rw [List.append_nil, List.append_nil]

theorem splitFrom_of_parts (h : Parts offset raw parts) :
    splitFrom 0 offset [] raw = .ok parts := by
  have dollar (rest : List Char) : ∀ c ∈ ('$' :: rest).head?, c = '$' := by simp
  induction h with
  | prose hprose =>
    have hnone : ∀ c ∈ [].head?, c = '$' := by simp
    obtain ⟨text, rfl, hsplit⟩ := splitFrom_prose hprose hnone _
    rwa [List.append_nil] at hsplit
  | @expression offset _ source rest _ _ hprose hmatched hblank _ ih =>
    obtain ⟨text, rfl, hsplit⟩ := splitFrom_prose hprose (dollar _) offset
    have hfound : interpolated? 0 none (source ++ '\x7d' :: rest) = some source :=
      interpolated?_eq_some_iff_matched.mpr ⟨hmatched, rest, rfl⟩
    rw [hsplit, splitFrom_expression hfound hblank, ih, ← flush_append]
    rfl
  | name hprose hn hends _ ih =>
    obtain ⟨text, rfl, hsplit⟩ := splitFrom_prose hprose (dollar _) _
    rw [hsplit, splitFrom_name hn hends, ih, ← flush_append]
    rfl

theorem split_eq_whole : split raw = (splitFrom 0 0 [] raw).map whole := by
  unfold split
  cases splitFrom 0 0 [] raw with
  | error => rfl
  | ok parts => cases parts <;> rfl

/-- A literal is split into its parts. -/
theorem split_eq_ok_iff : split raw = .ok segments ↔
    ∃ parts, Parts 0 raw parts ∧ segments = whole parts := by
  rw [split_eq_whole]
  constructor
  · intro h
    cases hparts : splitFrom 0 0 [] raw with
    | error =>
      rw [hparts] at h
      cases h
    | ok parts =>
      rw [hparts] at h
      cases h
      exact ⟨parts, parts_of_splitFrom hparts (Nat.zero_le _) (gathers_nil _) rfl, rfl⟩
  · rintro ⟨parts, hparts, rfl⟩
    rw [splitFrom_of_parts hparts]
    rfl

/-- Where nothing is interpolated the literal is one text. -/
theorem split_of_not_interpolates (h : ¬ Interpolates raw) :
    split raw = (unescape raw).map fun text => [.text text] := by
  have hplain : ¬ Interpolates (raw.drop 0 ++ [].take 1) := by
    rwa [List.take_nil, List.append_nil, List.drop_zero]
  have hsplit : splitFrom 0 0 [] (raw ++ []) = _ :=
    splitFrom_append (Nat.zero_le _) hplain (.inl rfl) []
  rw [List.append_nil] at hsplit
  rw [split_eq_whole, hsplit, ← unescape]
  cases htext : unescape raw with
  | error => rfl
  | ok text =>
    show Except.ok (whole (flush (text.reverse ++ []) [])) = .ok [.text text]
    rw [List.append_nil, flush, whole]
    cases text with
    | nil => rfl
    | cons c text => simp

/-! ## Text segments -/

/-- A segment that is text. -/
def Segment.IsText : Segment → Prop
  | .text _ => True
  | _ => False

/-- Of two segments in a row one is an interpolation. -/
abbrev Apart (segments : List Segment) : Prop :=
  segments.IsChain fun a b => ¬ (a.IsText ∧ b.IsText)

theorem Prose.apart (h : Prose gap texts) {segment : Segment} (hsegment : ¬ segment.IsText)
    (hsegments : Apart segments) : Apart (texts ++ segment :: segments) := by
  have hbehind : Apart (segment :: segments) :=
    List.IsChain.cons hsegments fun _ _ hboth => hsegment hboth.1
  cases h with
  | empty => exact hbehind
  | text =>
    refine hbehind.cons fun _ hnext hboth => ?_
    cases hnext
    exact hsegment hboth.2

theorem Parts.apart (h : Parts offset raw parts) : Apart parts := by
  induction h with
  | prose hprose =>
    cases hprose with
    | empty => exact .nil
    | text => exact .singleton _
  | expression hprose _ _ _ ih | name hprose _ _ _ ih => exact hprose.apart id ih

theorem Prose.text_ne_nil (h : Prose gap texts) : .text [] ∉ texts := by
  cases h with
  | empty => simp
  | text hne _ htext =>
    rw [List.mem_singleton]
    intro heq
    cases heq
    exact hne (eq_nil_of_unescape htext)

theorem Parts.text_ne_nil (h : Parts offset raw parts) : .text [] ∉ parts := by
  induction h with
  | prose hprose => exact hprose.text_ne_nil
  | expression hprose _ _ _ ih | name hprose _ _ _ ih =>
    rw [List.mem_append, List.mem_cons, not_or, not_or]
    exact ⟨hprose.text_ne_nil, by simp, ih⟩

/-! ## Splitting literals -/

/-- **A literal is split into its parts.** The segments are the texts between the interpolations, as
far as there are any, with their escapes replaced, and the interpolations between them: the source
up to the matching brace, and the longest name behind a dollar sign, each with the place where it
starts. No two texts stand side by side, and an empty one stands alone. Where no interpolation
begins, splitting a literal is replacing its escapes, errors included. In the contents of a string
token neither finds a backslash at the end that takes nothing. -/
theorem segments_of_literal :
    (∀ raw segments, split raw = .ok segments ↔
      ∃ parts, Parts 0 raw parts ∧ segments = whole parts) ∧
    (∀ raw segments, split raw = .ok segments →
      Apart segments ∧ (.text [] ∈ segments → segments = [.text []])) ∧
    (∀ raw, ¬ Interpolates raw → split raw = (unescape raw).map fun text => [.text text]) ∧
    ∀ mode at_ after raw doubleQuoted span,
      Token.next mode at_ = .ok (⟨.str raw doubleQuoted, span⟩, after) →
      ∀ e, unescape raw = .error e ∨ split raw = .error e → e.fault ≠ .danglingEscape := by
  refine ⟨fun _ _ => split_eq_ok_iff, fun raw segments h => ?_,
    fun _ => split_of_not_interpolates, fun mode at_ after raw doubleQuoted span h e he => ?_⟩
  · obtain ⟨parts, hparts, rfl⟩ := split_eq_ok_iff.mp h
    unfold whole
    split
    case isTrue => exact ⟨.singleton _, fun _ => rfl⟩
    case isFalse => exact ⟨hparts.apart, fun hmem => absurd hmem hparts.text_ne_nil⟩
  · have hpaired := paired_of_next h
    rcases he with hescape | hsplit
    · exact unescape_not_dangling hpaired hescape
    · exact split_not_dangling hpaired hsplit

/-- A greeting with an expression and a name, a dollar sign alone, and an escape that stands for
nothing. -/
theorem segments_of_literal_of_greeting :
    (∃ parts, Parts 0 "Hi $\x7buser.name\x7d, $count".toList parts ∧
      [.text "Hi ".toList, .expression "user.name".toList 5, .text ", ".toList,
        .name "count".toList 18] = whole parts) ∧
    Apart [.text "Hi ".toList, .expression "user.name".toList 5, .text ", ".toList,
      .name "count".toList 18] ∧
    split ['$'] = .ok [.text ['$']] ∧
    ∃ e, unescape "\\q".toList = .error e ∧ e.fault ≠ .danglingEscape := by
  obtain ⟨hparts, hapart, hplain, htoken⟩ := segments_of_literal
  have hsplit : split "Hi $\x7buser.name\x7d, $count".toList =
      .ok [.text "Hi ".toList, .expression "user.name".toList 5, .text ", ".toList,
        .name "count".toList 18] := by decide
  have hnext : Token.next .operand (Cursor.start "\"\\q\"".toList) =
      .ok (⟨.str "\\q".toList true, Span.ofRange 0 4⟩, ⟨4, []⟩) := by decide
  have hescape : unescape "\\q".toList = .error ⟨.unknownEscape 'q', Span.ofRange 0 2⟩ := by decide
  exact ⟨(hparts _ _).mp hsplit, (hapart _ _ hsplit).1,
    hplain _ (not_interpolates_short (Nat.le_refl 1)), _, hescape,
    htoken _ _ _ _ _ _ hnext _ (.inl hescape)⟩

end TagExpr.Literal
