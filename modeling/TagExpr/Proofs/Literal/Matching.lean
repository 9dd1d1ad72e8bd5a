import TagExpr.Proofs.Literal.Nesting

/-!
# The matching brace

What a text between matching braces is, by its parts: braces around such text, quoted text, a
backslash with the character it takes, any other character. The search for the closing brace stops
at the matching one and finds it wherever it stands (`interpolated?_eq_some_iff_matched`).
-/

namespace TagExpr.Literal

variable {q c : Char} {text inner source rest : List Char} {depth : Nat}

/-- What may stand in quotes. -/
inductive Quoted (q : Char) : List Char → Prop
  | nil : Quoted q []
  | escaped (c : Char) {rest : List Char} : Quoted q rest → Quoted q ('\\' :: c :: rest)
  | plain {c : Char} {rest : List Char} : c ≠ '\\' → c ≠ q → Quoted q rest → Quoted q (c :: rest)

/-- What may stand in braces: each brace in it has its partner. In quotes and behind a backslash
braces have no meaning. -/
inductive Matched : List Char → Prop
  | nil : Matched []
  | escaped (c : Char) {rest : List Char} : Matched rest → Matched ('\\' :: c :: rest)
  | plain {c : Char} {rest : List Char} : c ∉ ['\\', '\x7b', '\x7d', '"', '\''] → Matched rest →
      Matched (c :: rest)
  | quoted {q : Char} {inner rest : List Char} : q = '"' ∨ q = '\'' → Quoted q inner →
      Matched rest → Matched (q :: (inner ++ q :: rest))
  | braces {inner rest : List Char} : Matched inner → Matched rest →
      Matched ('\x7b' :: (inner ++ '\x7d' :: rest))

/-! ## What the search passes -/

theorem interpolated?_escaped (depth : Nat) (quote : Option Char) (c : Char) (rest : List Char) :
    interpolated? depth quote ('\\' :: c :: rest) =
      (interpolated? depth quote rest).map ('\\' :: c :: ·) := by
  rw [interpolated?]

theorem interpolated?_inside (hc : c ≠ '\\') (depth : Nat) (q : Char) (rest : List Char) :
    interpolated? depth (some q) (c :: rest) =
      (interpolated? depth (if c = q then none else some q) rest).map (c :: ·) :=
  interpolated?_cons hc ⟨depth, some q⟩ rest

theorem interpolated?_quote (hq : q = '"' ∨ q = '\'') (depth : Nat) (rest : List Char) :
    interpolated? depth none (q :: rest) =
      (interpolated? depth (some q) rest).map (q :: ·) := by
  rcases hq with rfl | rfl <;> exact interpolated?_cons (by decide) ⟨depth, none⟩ rest

theorem interpolated?_plain (hc : c ∉ ['\\', '\x7b', '\x7d', '"', '\'']) (depth : Nat)
    (rest : List Char) :
    interpolated? depth none (c :: rest) = (interpolated? depth none rest).map (c :: ·) := by
  simp only [List.mem_cons, List.not_mem_nil, or_false, not_or] at hc
  obtain ⟨hbackslash, hopen, hclose, hdouble, hsingle⟩ := hc
  have hpass : Nesting.pass? ⟨depth, none⟩ c = some ⟨depth, none⟩ := by
    simp [Nesting.pass?, hopen, hclose, hdouble, hsingle]
  have hnext := interpolated?_cons hbackslash ⟨depth, none⟩ rest
  rwa [hpass] at hnext

theorem interpolated?_open (depth : Nat) (rest : List Char) :
    interpolated? depth none ('\x7b' :: rest) =
      (interpolated? (depth + 1) none rest).map ('\x7b' :: ·) :=
  interpolated?_cons (by decide) ⟨depth, none⟩ rest

theorem interpolated?_close (depth : Nat) (rest : List Char) :
    interpolated? (depth + 1) none ('\x7d' :: rest) =
      (interpolated? depth none rest).map ('\x7d' :: ·) :=
  interpolated?_cons (by decide) ⟨depth + 1, none⟩ rest

theorem interpolated?_end (rest : List Char) :
    interpolated? 0 none ('\x7d' :: rest) = some [] :=
  interpolated?_cons (by decide) ⟨0, none⟩ rest

/-- Quoted text is passed together with the quote behind it. -/
theorem Quoted.interpolated? (h : Quoted q inner) (hq : q ≠ '\\') (depth : Nat)
    (rest : List Char) : interpolated? depth (some q) (inner ++ q :: rest) =
      (Literal.interpolated? depth none rest).map (inner ++ q :: ·) := by
  induction h with
  | nil =>
    rw [List.nil_append, interpolated?_inside hq, if_pos rfl]
    rfl
  | escaped c _ ih =>
    simp only [List.cons_append, interpolated?_escaped, ih, Option.map_map]
    rfl
  | plain hc hne _ ih =>
    simp only [List.cons_append, interpolated?_inside hc, if_neg hne, ih, Option.map_map]
    rfl

theorem ne_backslash_of_quote (hq : q = '"' ∨ q = '\'') : q ≠ '\\' := by
  rcases hq with rfl | rfl <;> decide

/-- Text in which the braces match is passed, in how many braces it may stand. -/
theorem Matched.interpolated? (h : Matched inner) (depth : Nat) (rest : List Char) :
    interpolated? depth none (inner ++ rest) =
      (Literal.interpolated? depth none rest).map (inner ++ ·) := by
  induction h generalizing depth rest with
  | nil => simp
  | escaped c _ ih =>
    simp only [List.cons_append, interpolated?_escaped, ih, Option.map_map]
    rfl
  | plain hc _ ih =>
    rw [List.cons_append, interpolated?_plain hc, ih, Option.map_map]
    rfl
  | quoted hq hinner _ ih =>
    rw [List.cons_append, List.append_assoc, List.cons_append, interpolated?_quote hq,
      hinner.interpolated? (ne_backslash_of_quote hq), ih, Option.map_map, Option.map_map]
    simp only [Function.comp_def, List.append_assoc, List.cons_append]
  | braces _ _ ihInner ihRest =>
    rw [List.cons_append, List.append_assoc, List.cons_append, interpolated?_open, ihInner,
      interpolated?_close, ihRest]
    simp only [Option.map_map, Function.comp_def, List.append_assoc, List.cons_append]

/-! ## What the search finds -/

/-- Text behind which all of the braces around it are closed but for the outermost. -/
def Closing : Nat → List Char → Prop
  | 0, text => Matched text
  | depth + 1, text =>
    ∃ inner rest, Matched inner ∧ Closing depth rest ∧ text = inner ++ '\x7d' :: rest

/-- The same, from a place inside of quotes. -/
def Continues (depth : Nat) : Option Char → List Char → Prop
  | none, text => Closing depth text
  | some q, text => ∃ inner rest, Quoted q inner ∧ Closing depth rest ∧ text = inner ++ q :: rest

/-- What may be put before matched text may be put before the text that follows. -/
theorem Closing.prepend (front : List Char) (h : Closing depth text)
    (hfront : ∀ inner, Matched inner → Matched (front ++ inner)) :
    Closing depth (front ++ text) := by
  cases depth with
  | zero => exact hfront text h
  | succ depth =>
    obtain ⟨inner, rest, hinner, hrest, rfl⟩ := h
    exact ⟨front ++ inner, rest, hfront inner hinner, hrest, (List.append_assoc ..).symm⟩

theorem continues_of_interpolated? {quote : Option Char}
    (hquote : ∀ q ∈ quote, q = '"' ∨ q = '\'') (h : interpolated? depth quote text = some source) :
    Continues depth quote source := by
  fun_induction interpolated? depth quote text generalizing source with
  | case1 | case2 => cases h
  | case3 depth quote c rest ih =>
    obtain ⟨found, hfound, rfl⟩ := Option.map_eq_some_iff.mp h
    have hcontinues := ih hquote hfound
    cases quote with
    | none => exact Closing.prepend ['\\', c] hcontinues fun _ => Matched.escaped c
    | some q =>
      obtain ⟨inner, more, hinner, hmore, rfl⟩ := hcontinues
      exact ⟨'\\' :: c :: inner, more, hinner.escaped c, hmore, rfl⟩
  | case4 depth c rest hc q ih =>
    obtain ⟨found, hfound, rfl⟩ := Option.map_eq_some_iff.mp h
    by_cases heq : c = q
    · rw [if_pos heq] at hfound ih
      subst heq
      exact ⟨[], found, .nil, ih (by simp) hfound, rfl⟩
    · rw [if_neg heq] at hfound ih
      obtain ⟨inner, more, hinner, hmore, rfl⟩ := ih hquote hfound
      exact ⟨c :: inner, more, .plain (fun h => hc h) heq hinner, hmore, rfl⟩
  | case5 depth rest _ ih =>
    obtain ⟨found, hfound, rfl⟩ := Option.map_eq_some_iff.mp h
    obtain ⟨inner, more, hinner, hmore, rfl⟩ := ih (by simp) hfound
    have hbraces : ∀ text, Matched text → Matched ('\x7b' :: inner ++ ['\x7d'] ++ text) := by
      intro text htext
      simpa using hinner.braces htext
    simpa [Continues] using hmore.prepend _ hbraces
  | case6 =>
    cases h
    exact Matched.nil
  | case7 rest _ _ depth ih =>
    obtain ⟨found, hfound, rfl⟩ := Option.map_eq_some_iff.mp h
    exact ⟨[], found, .nil, ih (by simp) hfound, rfl⟩
  | case8 depth c rest _ _ _ hmark ih =>
    obtain ⟨found, hfound, rfl⟩ := Option.map_eq_some_iff.mp h
    obtain ⟨inner, more, hinner, hmore, rfl⟩ := ih (by simpa using hmark) hfound
    have hquoted : ∀ text, Matched text → Matched (c :: inner ++ [c] ++ text) := by
      intro text htext
      simpa using Matched.quoted hmark hinner htext
    simpa [Continues] using hmore.prepend _ hquoted
  | case9 depth c rest hbackslash hopen hclose hmark ih =>
    obtain ⟨found, hfound, rfl⟩ := Option.map_eq_some_iff.mp h
    rw [not_or] at hmark
    have hplain : c ∉ ['\\', '\x7b', '\x7d', '"', '\''] := by
      simp only [List.mem_cons, List.not_mem_nil, or_false, not_or]
      exact ⟨hbackslash, hopen, hclose, hmark⟩
    exact Closing.prepend [c] (ih (by simp) hfound) fun _ => Matched.plain hplain

/-- The search finds the text before the matching brace. -/
theorem interpolated?_eq_some_iff_matched :
    interpolated? 0 none text = some source ↔
      Matched source ∧ ∃ after, text = source ++ '\x7d' :: after := by
  constructor
  · intro h
    exact ⟨continues_of_interpolated? (by simp) h, closed_of_interpolated? h⟩
  · rintro ⟨hmatched, after, rfl⟩
    rw [hmatched.interpolated?, interpolated?_end, Option.map_some, List.append_nil]

end TagExpr.Literal
