import TagExpr.Proofs.Token.Lexeme

/-!
# Lexemes and what follows them

No lexeme but a quoted literal holds a separator. So when a text is cut and goes on with a separator
there, the longest lexeme of a class is the longest one that ends before the cut (`Cuts`): it is the
old one if that did not reach past the cut. The lemmas follow the definitions of the lengths, which
are put together from runs of characters.
-/

namespace TagExpr.Token

/-- The text begins with a separator. -/
def Stops (text : List Char) : Prop := ∃ c rest, text = c :: rest ∧ Text.isSeparator c

/-- What the length of a lexeme becomes when `p ++ x` goes on as `p ++ t` instead. -/
inductive CutAt (f : List Char → Nat) (p x t : List Char) : Prop
  /-- The lexeme ends before the cut. -/
  | within : f (p ++ t) = f (p ++ x) → f (p ++ x) ≤ p.length → CutAt f p x t
  /-- The lexeme reaches past the cut. -/
  | beyond : f (p ++ t) ≤ p.length → p.length < f (p ++ x) → x ≠ [] → CutAt f p x t

/-- Lexemes end before separators. -/
def Cuts (f : List Char → Nat) : Prop := ∀ p x t, Stops t → CutAt f p x t

section CutAt

variable {f g h : List Char → Nat} {p q x t : List Char}

theorem CutAt.le (hc : CutAt f p x t) : f (p ++ t) ≤ p.length := by
  rcases hc with ⟨heq, hle⟩ | ⟨hle, -⟩
  · omega
  · exact hle

/-- A lexeme is no longer than the text. -/
theorem CutAt.le_of_nil (hc : CutAt f p [] t) : f (p ++ []) ≤ p.length := by
  rcases hc with ⟨-, hle⟩ | ⟨-, -, hne⟩
  · exact hle
  · exact absurd rfl hne

theorem CutAt.eq (hc : CutAt f p x t) (hx : f (p ++ x) ≤ p.length) : f (p ++ t) = f (p ++ x) := by
  rcases hc with ⟨heq, -⟩ | ⟨-, hlt, -⟩
  · exact heq
  · omega

/-- Nothing is read from a text that stops at once. -/
theorem cutAt_nil (hnil : f [] = 0) (ht : f t = 0) : CutAt f [] x t := by
  rcases Nat.eq_zero_or_pos (f x) with hx | hx
  · exact .within (by simp [ht, hx]) (by simp [hx])
  · refine .beyond (by simp [ht]) (by simpa using hx) ?_
    rintro rfl
    omega

/-- Nothing is read from the text that stops. -/
theorem cutAt_zero (ht : f (p ++ t) = 0)
    (hx : f (p ++ x) = 0 ∨ p.length < f (p ++ x) ∧ x ≠ []) : CutAt f p x t := by
  rcases hx with hx | ⟨hx, hne⟩
  · exact .within (ht.trans hx.symm) (by omega)
  · exact .beyond (by omega) hx hne

theorem CutAt.congr (hg : CutAt g p x t) (hx : f (p ++ x) = g (p ++ x))
    (ht : f (p ++ t) = g (p ++ t)) : CutAt f p x t := by
  rcases hg with ⟨heq, hle⟩ | ⟨hle, hlt, hne⟩
  · exact .within (by rw [ht, hx, heq]) (by rwa [hx])
  · exact .beyond (by rwa [ht]) (by rwa [hx]) hne

/-- What comes first has been read, and then what comes next; where nothing comes next, `n` is all
that is read. -/
theorem CutAt.after {n : Nat} (hg : CutAt g p x t) (hq : n ≤ q.length)
    (hx : f (q ++ (p ++ x)) = if g (p ++ x) = 0 then n else q.length + g (p ++ x))
    (ht : f (q ++ (p ++ t)) = if g (p ++ t) = 0 then n else q.length + g (p ++ t)) :
    CutAt f (q ++ p) x t := by
  rcases hg with ⟨heq, hle⟩ | ⟨hle, hlt, hne⟩
  · refine .within ?_ ?_
    · rw [List.append_assoc, List.append_assoc, ht, hx, heq]
    · rw [List.append_assoc, hx, List.length_append]
      split <;> omega
  · refine .beyond ?_ ?_ hne
    · rw [List.append_assoc, ht, List.length_append]
      split <;> omega
    · rw [List.append_assoc, hx, if_neg (by omega), List.length_append]
      omega

/-- One after the other is read. -/
theorem Cuts.seq (hg : Cuts g) (hh : Cuts h) :
    Cuts fun text => g text + h (text.drop (g text)) := by
  intro p x t ht
  rcases hg p x t ht with ⟨heq, hle⟩ | ⟨hle, hlt, hne⟩
  · have drop (y : List Char) : (p ++ y).drop (g (p ++ x)) = p.drop (g (p ++ x)) ++ y :=
      List.drop_append_of_le_length hle
    have len : (p.drop (g (p ++ x))).length = p.length - g (p ++ x) := List.length_drop ..
    rcases hh (p.drop (g (p ++ x))) x t ht with ⟨heq', hle'⟩ | ⟨hle', hlt', hne⟩
    · refine .within ?_ ?_ <;> simp only [heq, drop] <;> omega
    · refine .beyond ?_ ?_ hne <;> simp only [heq, drop] <;> omega
  · refine .beyond ?_ (by omega) hne
    have drop : (p ++ t).drop (g (p ++ t)) = p.drop (g (p ++ t)) ++ t :=
      List.drop_append_of_le_length hle
    have len : (p.drop (g (p ++ t))).length = p.length - g (p ++ t) := List.length_drop ..
    have := (hh (p.drop (g (p ++ t))) x t ht).le
    simp only [drop]
    omega

/-- The second part is read only where the first one is not missing. -/
theorem Cuts.needs (hg : Cuts g) (hh : Cuts h) :
    Cuts fun text => if g text = 0 then 0 else g text + h (text.drop (g text)) := by
  intro p x t ht
  have both := hg.seq hh p x t ht
  have first := hg p x t ht
  by_cases hx : g (p ++ x) = 0
  · have hle : g (p ++ x) ≤ p.length := by omega
    refine .within ?_ ?_ <;> simp [hx, first.eq hle]
  · rcases first with ⟨heq, hle⟩ | ⟨hle, hlt, hne⟩
    · rcases both with ⟨heq', hle'⟩ | ⟨hle', hlt', hne⟩
      · refine .within ?_ ?_ <;> simp only [heq, if_neg hx] at heq' ⊢ <;> assumption
      · refine .beyond ?_ ?_ hne <;> simp only [heq, if_neg hx] at hle' hlt' ⊢ <;> assumption
    · refine .beyond ?_ ?_ hne
      · split
        · omega
        · exact both.le
      · simp only [if_neg hx]
        omega

theorem Cuts.le_length (hf : Cuts f) (text : List Char) :
    f text ≤ text.length := by
  simpa using (hf text [] [' '] ⟨' ', [], rfl, rfl⟩).le_of_nil

/-- A lexeme is found again in any part of the text that it is in. -/
theorem Cuts.take_of_le (hf : Cuts f) {text : List Char} {n : Nat} (h : f text ≤ n) :
    f (text.take n) = f text := by
  have stops : Stops [' '] := ⟨' ', [], rfl, rfl⟩
  rcases Nat.le_total text.length n with hn | hn
  · rw [List.take_of_length_le hn]
  · have hlen : (text.take n).length = n := List.length_take_of_le hn
    have whole := hf (text.take n) (text.drop n) [' '] stops
    have alone := hf (text.take n) [] [' '] stops
    have heq := alone.eq alone.le_of_nil
    rw [List.append_nil] at heq
    rw [← heq, whole.eq (by rwa [List.take_append_drop, hlen]), List.take_append_drop]

/-- A lexeme is one on its own. -/
theorem Cuts.take (hf : Cuts f) (text : List Char) : f (text.take (f text)) = f text :=
  hf.take_of_le (Nat.le_refl _)

end CutAt

/-! ## Runs of characters -/

theorem cuts_takeWhile {q : Char → Bool} (hq : ∀ c, Text.isSeparator c → q c = false) :
    Cuts fun text => (text.takeWhile q).length := by
  intro p x t ht
  induction p with
  | nil =>
    obtain ⟨c, rest, rfl, hc⟩ := ht
    exact cutAt_nil rfl (by simp [hq c hc])
  | cons c p ih =>
    by_cases hc : q c
    · rcases ih with ⟨heq, hle⟩ | ⟨hle, hlt, hne⟩
      · refine .within ?_ ?_ <;> simpa [hc] using ‹_›
      · refine .beyond ?_ ?_ hne <;> simpa [hc] using ‹_›
    · refine .within ?_ ?_ <;> simp [hc]

theorem separator_cases {P : Char → Prop} (h : P ' ' ∧ P '\t' ∧ P '\n' ∧ P '\x0c' ∧ P '\r')
    (c : Char) (hc : Text.isSeparator c) : P c := by
  obtain ⟨space, tab, newline, feed, return_⟩ := h
  simp only [Text.isSeparator, Bool.or_eq_true, beq_iff_eq] at hc
  rcases hc with (((rfl | rfl) | rfl) | rfl) | rfl <;> assumption

theorem cuts_suffix {letters : List Char}
    (h : ∀ c, Text.isSeparator c → letters.contains c = false) : Cuts (suffixLength letters) := by
  intro p x t ht
  cases p with
  | nil =>
    obtain ⟨c, rest, rfl, hc⟩ := ht
    exact cutAt_nil rfl (by rw [suffixLength, h c hc, if_neg Bool.false_ne_true])
  | cons c p =>
    refine .within rfl ?_
    simp only [List.cons_append, suffixLength, List.length_cons]
    split <;> omega

theorem cuts_digits : Cuts digitsLength :=
  cuts_takeWhile (separator_cases (by decide))

theorem cuts_hexDigits : Cuts fun text => (text.takeWhile isHexDigit).length :=
  cuts_takeWhile (separator_cases (by decide))

theorem cuts_name : Cuts nameLength := by
  intro p x t ht
  cases p with
  | nil =>
    obtain ⟨c, rest, rfl, hc⟩ := ht
    exact cutAt_nil rfl (if_neg (by
      rw [separator_cases (P := fun c => isNameStart c = false) (by decide) c hc]
      exact Bool.false_ne_true))
  | cons c p =>
    by_cases hc : isNameStart c
    · have part := cuts_takeWhile (q := isNamePart) (separator_cases (by decide)) p x t ht
      refine part.after (q := [c]) (n := 1) (by simp) ?_ ?_ <;>
        · simp only [List.singleton_append, nameLength, if_pos hc, List.length_singleton]
          split <;> omega
    · refine .within ?_ ?_ <;> simp [nameLength, hc]

theorem callableLength_eq (text : List Char) : callableLength text =
    if nameLength text = 0 then 0
    else nameLength text + suffixLength ['('] (text.drop (nameLength text)) := by
  unfold callableLength
  simp only
  split
  case isTrue => rfl
  case isFalse =>
    split
    case h_1 heq => simp [heq, suffixLength]
    case h_2 hne =>
      cases hd : text.drop (nameLength text) with
      | nil => rfl
      | cons c rest =>
        have hc : c ≠ '(' := fun he => hne rest (by rw [hd, he])
        simp [suffixLength, hc]

theorem cuts_callable : Cuts callableLength := by
  rw [funext callableLength_eq]
  exact cuts_name.needs (cuts_suffix (separator_cases (by decide)))

/-! ## Numbers -/

theorem cuts_int : Cuts intLength :=
  cuts_digits.needs (cuts_suffix (separator_cases (by decide)))

/-- The digits of an exponent, with their sign. -/
def signedLength (text : List Char) : Nat :=
  let sign := suffixLength ['+', '-'] text
  let digits := digitsLength (text.drop sign)
  if digits = 0 then 0 else sign + digits

theorem cuts_signed : Cuts signedLength := by
  intro p x t ht
  cases p with
  | nil =>
    obtain ⟨c, rest, rfl, hc⟩ := ht
    refine cutAt_nil rfl ?_
    have hsign : suffixLength ['+', '-'] (c :: rest) = 0 := by
      have := separator_cases (P := fun c => ['+', '-'].contains c = false) (by decide) c hc
      rw [suffixLength, this, if_neg Bool.false_ne_true]
    have hdigits : digitsLength (c :: rest) = 0 := by
      have := separator_cases (P := fun c => c.isDigit = false) (by decide) c hc
      simp [digitsLength, this]
    simp only [signedLength, hsign, List.drop_zero, hdigits, if_true]
  | cons c p =>
    by_cases hc : ['+', '-'].contains c
    · refine (cuts_digits p x t ht).after (q := [c]) (n := 0) (by simp) ?_ ?_ <;>
        simp only [List.singleton_append, signedLength, suffixLength, hc, if_true,
          List.drop_one, List.tail_cons, List.length_singleton]
    · have part := cuts_digits (c :: p) x t ht
      refine part.after (q := []) (n := 0) (by simp) ?_ ?_ <;>
        simp only [List.nil_append, List.cons_append, signedLength, suffixLength, hc,
          Bool.false_eq_true, if_false, List.drop_zero, List.length_nil, Nat.zero_add]

theorem cuts_exponent : Cuts exponentLength := by
  intro p x t ht
  cases p with
  | nil =>
    obtain ⟨c, rest, rfl, hc⟩ := ht
    have := separator_cases (P := fun c => ¬ (c = 'e' ∨ c = 'E')) (by decide) c hc
    exact cutAt_nil rfl (if_neg this)
  | cons c p =>
    by_cases hc : c = 'e' ∨ c = 'E'
    · refine (cuts_signed p x t ht).after (q := [c]) (n := 0) (by simp) ?_ ?_ <;>
        · simp only [List.singleton_append, exponentLength, if_pos hc, signedLength,
            List.length_singleton]
          split <;> simp_all
          omega
    · refine .within ?_ ?_ <;> simp [exponentLength, hc]

theorem cuts_doubleTail : Cuts doubleTailLength :=
  cuts_exponent.seq (cuts_suffix (separator_cases (by decide)))

/-- Only a zero and an `x` begin a number in base sixteen. -/
theorem hexLength_other {zero mark : Char} (h : ¬ (zero = '0' ∧ (mark = 'x' ∨ mark = 'X')))
    (rest : List Char) : hexLength (zero :: mark :: rest) = 0 := by
  unfold hexLength
  split
  case h_1 heq =>
    obtain ⟨hzero, heq⟩ := List.cons.inj heq
    obtain ⟨rfl, -⟩ := List.cons.inj heq
    exact if_neg fun hm => h ⟨hzero, hm⟩
  case h_2 => rfl

theorem hexLength_singleton (c : Char) : hexLength [c] = 0 := by simp [hexLength]

/-- A number in base sixteen is longer than its first character. -/
theorem hexLength_long (text : List Char) : hexLength text = 0 ∨ 1 < hexLength text := by
  fun_cases hexLength text with
  | case1 | case3 | case4 => exact .inl rfl
  | case2 => omega

theorem cuts_hex : Cuts hexLength := by
  have digits : Cuts fun text => if (text.takeWhile isHexDigit).length = 0 then 0
      else (text.takeWhile isHexDigit).length +
        suffixLength ['l', 'L'] (text.drop (text.takeWhile isHexDigit).length) :=
    cuts_hexDigits.needs (cuts_suffix (separator_cases (by decide)))
  intro p x t ht
  match p with
  | [] =>
    obtain ⟨c, rest, rfl, hc⟩ := ht
    have hne := separator_cases (P := (· ≠ '0')) (by decide) c hc
    refine cutAt_nil rfl ?_
    cases rest with
    | nil => exact hexLength_singleton c
    | cons d rest => exact hexLength_other (fun h => hne h.1) rest
  | [zero] =>
    obtain ⟨c, rest, rfl, hc⟩ := ht
    have hne := separator_cases (P := fun c => ¬ (c = 'x' ∨ c = 'X')) (by decide) c hc
    refine cutAt_zero (hexLength_other (fun h => hne h.2) rest) ?_
    by_cases hx : x = []
    · subst hx
      exact .inl (hexLength_singleton zero)
    · exact (hexLength_long ([zero] ++ x)).imp_right fun hlong => ⟨hlong, hx⟩
  | zero :: mark :: p =>
    by_cases hz : zero = '0' ∧ (mark = 'x' ∨ mark = 'X')
    · obtain ⟨rfl, hm⟩ := hz
      refine (digits p x t ht).after (q := ['0', mark]) (n := 0) (by simp) ?_ ?_ <;>
        · simp only [List.cons_append, List.nil_append, hexLength, if_pos hm, List.length_cons,
            List.length_nil]
          split
          · rfl
          · rw [if_neg (by omega)]
            omega
    · exact cutAt_zero (hexLength_other hz _) (.inl (hexLength_other hz _))

/-- What makes digits a double: a point with more digits, or else an exponent or a suffix. -/
def fractionLength (whole : Nat) : List Char → Nat
  | '.' :: rest =>
    if digitsLength rest = 0 then 0
    else 1 + (digitsLength rest + doubleTailLength (rest.drop (digitsLength rest)))
  | rest => if whole = 0 then 0 else doubleTailLength rest

theorem doubleLength_eq (text : List Char) : doubleLength text =
    if fractionLength (digitsLength text) (text.drop (digitsLength text)) = 0 then 0
    else digitsLength text +
      fractionLength (digitsLength text) (text.drop (digitsLength text)) := by
  unfold doubleLength
  simp only
  split
  case h_1 rest heq =>
    rw [heq, fractionLength]
    split <;> simp_all
    omega
  case h_2 hne =>
    have : fractionLength (digitsLength text) (text.drop (digitsLength text)) =
        if digitsLength text = 0 then 0
        else doubleTailLength (text.drop (digitsLength text)) := by
      unfold fractionLength
      split
      case h_1 rest heq => exact absurd heq (hne rest)
      case h_2 => rfl
    rw [this]
    split <;> simp_all

theorem cuts_fraction (whole : Nat) : Cuts (fractionLength whole) := by
  have plain {c : Char} (hc : c ≠ '.') (rest : List Char) : fractionLength whole (c :: rest) =
      if whole = 0 then 0 else doubleTailLength (c :: rest) := by
    unfold fractionLength
    split
    case h_1 heq => exact absurd (List.cons.inj heq).1 hc
    case h_2 => rfl
  intro p x t ht
  cases p with
  | nil =>
    refine cutAt_nil (ite_self 0) ?_
    have tail : doubleTailLength t = 0 := Nat.le_zero.mp (cuts_doubleTail [] [] t ht).le
    obtain ⟨c, rest, rfl, hc⟩ := ht
    rw [plain (separator_cases (P := (· ≠ '.')) (by decide) c hc), tail]
    split <;> rfl
  | cons c p =>
    by_cases hc : c = '.'
    · subst hc
      refine (cuts_digits.needs cuts_doubleTail p x t ht).after (q := ['.']) (n := 0)
        (by simp) ?_ ?_ <;>
        · simp only [List.singleton_append, fractionLength, List.length_singleton]
          split <;> simp_all
    · by_cases hw : whole = 0
      · refine cutAt_zero ?_ (.inl ?_) <;> rw [List.cons_append, plain hc, if_pos hw]
      · refine (cuts_doubleTail (c :: p) x t ht).after (q := []) (n := 0) (by simp) ?_ ?_ <;>
          · simp only [List.nil_append, List.cons_append, plain hc, if_neg hw, List.length_nil,
              Nat.zero_add]
            split <;> simp_all

theorem all_of_lt_takeWhile {q : Char → Bool} {p x : List Char}
    (h : p.length < ((p ++ x).takeWhile q).length) : ∀ c ∈ p, q c := by
  have hstart : p <+: (p ++ x).takeWhile q :=
    List.prefix_of_prefix_length_le (List.prefix_append p x) (List.takeWhile_prefix q) (by omega)
  exact fun c hc => List.all_eq_true.mp List.all_takeWhile c (hstart.subset hc)

theorem cuts_double : Cuts doubleLength := by
  intro p x t ht
  rcases cuts_digits p x t ht with ⟨heq, hle⟩ | ⟨hle, hlt, hne⟩
  · generalize hn : digitsLength (p ++ x) = n at heq hle
    have hlen : (p.take n).length = n := List.length_take_of_le hle
    have part := (cuts_fraction n (p.drop n) x t ht).after (f := doubleLength) (q := p.take n)
      (n := 0) (Nat.zero_le _)
    rw [List.take_append_drop] at part
    refine part ?_ ?_ <;>
      rw [← List.append_assoc, List.take_append_drop, doubleLength_eq, hlen]
    · rw [hn, List.drop_append_of_le_length hle]
    · rw [heq, List.drop_append_of_le_length hle]
  · -- All that stands before the cut are digits, and a separator makes no double of them.
    have digits := all_of_lt_takeWhile hlt
    refine cutAt_zero ?_ ?_
    · obtain ⟨c, rest, rfl, hc⟩ := id ht
      have hall : digitsLength (p ++ c :: rest) = p.length := by
        rw [digitsLength, List.takeWhile_append_of_pos digits]
        simp [separator_cases (P := fun c => c.isDigit = false) (by decide) c hc]
      rw [doubleLength_eq, hall, List.drop_left]
      have := (cuts_fraction p.length [] [] _ ht).le
      exact if_pos (Nat.le_zero.mp this)
    · rw [doubleLength_eq]
      split
      · exact .inl rfl
      · exact .inr ⟨by omega, hne⟩

/-! ## Symbols -/

/-- No character is a separator. -/
def unbroken (text : List Char) : Bool := text.all (!Text.isSeparator ·)

theorem not_separator_of_unbroken {text : List Char} (h : unbroken text) :
    ∀ c ∈ text, Text.isSeparator c = false := by
  intro c hc
  simpa using List.all_eq_true.mp h c hc

/-- What holds no separator and begins a text begins it before the first separator. -/
theorem prefix_of_stops {l p t : List Char} (hl : unbroken l)
    (ht : Stops t) (h : l <+: p ++ t) : l <+: p := by
  rcases Nat.lt_or_ge p.length l.length with hlt | hle
  · obtain ⟨more, rfl⟩ :=
      List.prefix_of_prefix_length_le (List.prefix_append p t) h (Nat.le_of_lt hlt)
    rw [List.prefix_append_right_inj] at h
    obtain ⟨c, rest, rfl, hc⟩ := ht
    cases more with
    | nil => simp at hlt
    | cons d more =>
      obtain ⟨rfl, -⟩ := List.cons_prefix_cons.mp h
      cases hc.symm.trans (not_separator_of_unbroken hl d (by simp))
  · exact List.prefix_of_prefix_length_le h (List.prefix_append p t) hle

theorem le_symbolLength_iff {symbols : List String} {text : List Char} {n : Nat} :
    n ≤ symbolLength symbols text ↔
      n = 0 ∨ ∃ s ∈ symbols, s.toList <+: text ∧ n ≤ s.length := by
  have fold (best : Nat) : n ≤ symbols.foldl
      (fun best symbol => if symbol.toList.isPrefixOf text then max best symbol.length else best)
      best ↔ n ≤ best ∨ ∃ s ∈ symbols, s.toList <+: text ∧ n ≤ s.length := by
    induction symbols generalizing best with
    | nil => simp
    | cons s symbols ih =>
      rw [List.foldl_cons, ih]
      by_cases hs : s.toList <+: text
      · rw [if_pos (List.isPrefixOf_iff_prefix.mpr hs)]
        simp only [List.mem_cons, exists_eq_or_imp, hs, true_and]
        rw [show n ≤ max best s.length ↔ n ≤ best ∨ n ≤ s.length by omega, or_assoc]
      · rw [if_neg (mt List.isPrefixOf_iff_prefix.mp hs)]
        simp only [List.mem_cons, exists_eq_or_imp, hs, false_and, false_or]
  rw [symbolLength, fold, Nat.le_zero]

theorem cuts_symbols {symbols : List String} (hs : symbols.all (unbroken ·.toList)) :
    Cuts (symbolLength symbols) := by
  intro p x t ht
  have ends {n : Nat} (h : n ≤ symbolLength symbols (p ++ t)) :
      n ≤ p.length ∧ ∀ y, n ≤ symbolLength symbols (p ++ y) := by
    rcases le_symbolLength_iff.mp h with rfl | ⟨s, hmem, hprefix, hle⟩
    · exact ⟨Nat.zero_le _, fun _ => Nat.zero_le _⟩
    · have hp := prefix_of_stops (List.all_eq_true.mp hs s hmem) ht hprefix
      have hlen := hp.length_le
      rw [String.length_toList] at hlen
      exact ⟨by omega, fun y =>
        le_symbolLength_iff.mpr (.inr ⟨s, hmem, hp.trans (List.prefix_append p y), hle⟩)⟩
  obtain ⟨hle, hmono⟩ := ends (Nat.le_refl _)
  rcases Nat.lt_or_ge p.length (symbolLength symbols (p ++ x)) with hlt | hge
  · refine .beyond hle hlt ?_
    rintro rfl
    rcases le_symbolLength_iff.mp hlt with hzero | ⟨s, hmem, hprefix, hlen⟩
    · cases hzero
    · have := hprefix.length_le
      rw [List.append_nil, String.length_toList] at this
      omega
  · refine .within (Nat.le_antisymm (hmono x) ?_) hge
    rcases le_symbolLength_iff.mp (Nat.le_refl (symbolLength symbols (p ++ x))) with
      hzero | ⟨s, hmem, hprefix, hlen⟩
    · omega
    · -- The symbol is not longer than what stands before the cut.
      refine le_symbolLength_iff.mpr (.inr ⟨s, hmem, ?_, hlen⟩)
      have hlong : s.length ≤ symbolLength symbols (p ++ x) :=
        le_symbolLength_iff.mpr (.inr ⟨s, hmem, hprefix, Nat.le_refl _⟩)
      have hp : s.toList <+: p := List.prefix_of_prefix_length_le hprefix
        (List.prefix_append p x) (by rw [String.length_toList]; omega)
      exact hp.trans (List.prefix_append p t)

/-! ## Names and paths -/

/-- The repetitions of three characters at the head of a text. -/
theorem cuts_triples {f : List Char → Nat} {u v w : Char}
    (hs : unbroken [u, v, w])
    (hf : ∀ rest, f (u :: v :: w :: rest) = 1 + f rest)
    (hzero : ∀ text, ¬ [u, v, w] <+: text → f text = 0) : Cuts fun text => 3 * f text := by
  intro p x t ht
  induction hn : p.length using Nat.strongRecOn generalizing p with
  | ind n ih =>
    by_cases hp : [u, v, w] <+: p
    · obtain ⟨p, rfl⟩ := hp
      refine (ih p.length (by simp [← hn]; omega) p rfl).after (q := [u, v, w]) (n := 3) (by simp)
        ?_ ?_ <;>
        · simp only [List.cons_append, List.nil_append, hf, List.length_cons, List.length_nil]
          split <;> omega
    · refine cutAt_zero ?_ ?_
      · simp only [hzero _ (mt (prefix_of_stops hs ht) hp), Nat.mul_zero]
      · by_cases hx : [u, v, w] <+: p ++ x
        · have hlt : p.length < 3 := by
            refine Nat.lt_of_not_le fun hle => hp ?_
            exact List.prefix_of_prefix_length_le hx (List.prefix_append p x) hle
          refine .inr ⟨?_, fun he => hp (by simpa [he] using hx)⟩
          obtain ⟨rest, hrest⟩ := hx
          simp only [← hrest, List.cons_append, List.nil_append, hf]
          omega
        · simp only [hzero _ hx, Nat.mul_zero, true_or]

theorem cuts_ascents : Cuts fun text => 3 * ascents text := by
  refine cuts_triples (u := '.') (v := '.') (w := '/') (by decide) (fun _ => rfl) fun text h => ?_
  unfold ascents
  split
  case h_1 rest => exact absurd ⟨rest, rfl⟩ h
  case h_2 => rfl

theorem cuts_furtherParents : Cuts fun text => 3 * furtherParents text := by
  refine cuts_triples (u := '/') (v := '.') (w := '.') (by decide) (fun _ => rfl) fun text h => ?_
  unfold furtherParents
  split
  case h_1 rest => exact absurd ⟨rest, rfl⟩ h
  case h_2 => rfl

theorem pathLength_dot {c : Char} (hc : c ≠ '.') (rest : List Char) :
    pathLength ('.' :: c :: rest) = 1 := by
  unfold pathLength
  split
  case h_1 heq => exact absurd (List.cons.inj (List.cons.inj heq).2).1 hc
  case h_2 => rfl
  case h_3 hne => exact absurd rfl (hne _)

theorem pathLength_other {c : Char} (hc : c ≠ '.') (rest : List Char) :
    pathLength (c :: rest) = 0 := by
  unfold pathLength
  split
  case h_1 heq => exact absurd (List.cons.inj heq).1 hc
  case h_2 heq => exact absurd (List.cons.inj heq).1 hc
  case h_3 => rfl

theorem cuts_path : Cuts pathLength := by
  have further : Cuts fun text => 3 * furtherParents text +
      suffixLength ['/'] (text.drop (3 * furtherParents text)) :=
    cuts_furtherParents.seq (cuts_suffix (separator_cases (by decide)))
  intro p x t ht
  match p with
  | [] =>
    obtain ⟨c, rest, rfl, hc⟩ := ht
    exact cutAt_nil rfl (pathLength_other (separator_cases (P := (· ≠ '.')) (by decide) c hc) rest)
  | [c] =>
    obtain ⟨d, rest, rfl, hd⟩ := ht
    have hdot := separator_cases (P := (· ≠ '.')) (by decide) d hd
    by_cases hc : c = '.'
    · subst hc
      have ht : pathLength (['.'] ++ d :: rest) = 1 := pathLength_dot hdot rest
      match x with
      | [] => exact .within ht (by decide)
      | e :: x =>
        by_cases he : e = '.'
        · subst he
          refine .beyond (Nat.le_of_eq ht) ?_ (by simp)
          simp only [List.singleton_append, pathLength, List.length_singleton]
          omega
        · have hx : pathLength (['.'] ++ e :: x) = 1 := pathLength_dot he x
          exact .within (ht.trans hx.symm) (by rw [hx]; decide)
    · exact cutAt_zero (pathLength_other hc _) (.inl (pathLength_other hc _))
  | c :: d :: p =>
    by_cases hc : c = '.'
    · subst hc
      by_cases hd : d = '.'
      · subst hd
        refine (further p x t ht).after (q := ['.', '.']) (n := 2) (by simp) ?_ ?_ <;>
          · simp only [List.cons_append, List.nil_append, pathLength, List.length_cons,
              List.length_nil]
            split <;> omega
      · have dot (y : List Char) : pathLength ('.' :: d :: p ++ y) = 1 := pathLength_dot hd _
        exact .within ((dot t).trans (dot x).symm) (by rw [dot x]; simp)
    · exact cutAt_zero (pathLength_other hc _) (.inl (pathLength_other hc _))

/-! ### Names with marks -/

/-- A name that may have a dot before it. -/
def dottedLength : List Char → Nat
  | '.' :: rest => if callableLength rest = 0 then 0 else 1 + callableLength rest
  | rest => callableLength rest

theorem dottedLength_other {c : Char} (hc : c ≠ '.') (rest : List Char) :
    dottedLength (c :: rest) = callableLength (c :: rest) := by
  unfold dottedLength
  split
  case h_1 heq => exact absurd (List.cons.inj heq).1 hc
  case h_2 => rfl

theorem identLength_eq (text : List Char) : identLength text =
    if dottedLength (text.drop (lookupMarks text).2) = 0 then 0
    else (lookupMarks text).2 + dottedLength (text.drop (lookupMarks text).2) := by
  unfold identLength
  simp only
  split
  case h_1 rest heq =>
    rw [heq, dottedLength]
    split <;> simp_all
    omega
  case h_2 hne =>
    have : dottedLength (text.drop (lookupMarks text).2) =
        callableLength (text.drop (lookupMarks text).2) := by
      unfold dottedLength
      split
      case h_1 rest heq => exact absurd heq (hne rest)
      case h_2 => rfl
    rw [this]

theorem cuts_dotted : Cuts dottedLength := by
  intro p x t ht
  cases p with
  | nil =>
    have stops : callableLength t = 0 := Nat.le_zero.mp (cuts_callable [] [] t ht).le
    obtain ⟨c, rest, rfl, hc⟩ := ht
    refine cutAt_nil rfl ?_
    rw [dottedLength_other (separator_cases (P := (· ≠ '.')) (by decide) c hc), stops]
  | cons c p =>
    by_cases hc : c = '.'
    · subst hc
      exact (cuts_callable p x t ht).after (q := ['.']) (n := 0) (by simp) rfl rfl
    · refine (cuts_callable (c :: p) x t ht).after (q := []) (n := 0) (by simp) ?_ ?_ <;>
        · simp only [List.nil_append, List.cons_append, dottedLength_other hc, List.length_nil,
            Nat.zero_add]
          split <;> simp_all

/-- No name begins with one of the characters of which marks are made. -/
def isMark (c : Char) : Bool := c = '.' || c = '/' || c = '\\'

theorem isMark_of_mem_ascents {text : List Char} {c : Char} (h : c ∈ text.take (3 * ascents text)) :
    isMark c := by
  fun_induction ascents text with
  | case1 rest ih =>
    rw [show 3 * (1 + ascents rest) = 3 * ascents rest + 3 by omega] at h
    simp only [List.take_succ_cons, List.mem_cons] at h
    rcases h with rfl | rfl | rfl | h
    · rfl
    · rfl
    · rfl
    · exact ih h
  | case2 => cases h

theorem isMark_of_mem_marks {text : List Char} {c : Char}
    (h : c ∈ text.take (lookupMarks text).2) : isMark c := by
  unfold lookupMarks at h
  split at h
  case h_1 =>
    simp only [List.take_succ_cons, List.take_zero, List.mem_cons, List.not_mem_nil, or_false] at h
    rcases h with rfl | rfl <;> rfl
  case h_2 | h_3 =>
    simp only [List.take_succ_cons, List.take_zero, List.mem_cons, List.not_mem_nil, or_false] at h
    subst h
    rfl
  case h_4 =>
    split at h
    case h_1 => cases h
    case h_2 => exact isMark_of_mem_ascents h

theorem marks_ascents {c : Char} {rest : List Char} (h : ∀ more, c :: rest ≠ '.' :: '/' :: more)
    (hc : c = '.' ∨ isMark c = false) : (lookupMarks (c :: rest)).2 = 3 * ascents (c :: rest) := by
  unfold lookupMarks
  split
  case h_1 heq => exact absurd heq (h _)
  case h_2 heq | h_3 heq =>
    obtain ⟨rfl, -⟩ := List.cons.inj heq
    rcases hc with hc | hc <;> cases hc
  case h_4 =>
    split
    case h_1 heq => simp [heq]
    case h_2 => rfl

theorem marks_of_stops {t : List Char} (ht : Stops t) : (lookupMarks t).2 = 0 := by
  have none : 3 * ascents t = 0 := Nat.le_zero.mp (cuts_ascents [] [] t ht).le
  obtain ⟨c, rest, rfl, hc⟩ := ht
  have hmark := separator_cases (P := fun c => c ≠ '.' ∧ isMark c = false) (by decide) c hc
  rw [marks_ascents (fun _ heq => hmark.1 (List.cons.inj heq).1) (.inr hmark.2), none]

/-- A mark other than a dot stands alone. -/
theorem marks_one {c : Char} (hc : isMark c) (hdot : c ≠ '.') (rest : List Char) :
    (lookupMarks (c :: rest)).2 = 1 := by
  simp only [isMark, hdot, decide_false, Bool.false_or, Bool.or_eq_true, decide_eq_true_eq] at hc
  rcases hc with rfl | rfl <;> rfl

/-- One dot is no mark, unless a slash follows it. -/
theorem cutAt_dot (x : List Char) {t : List Char} (ht : Stops t) :
    CutAt (fun text => (lookupMarks text).2) ['.'] x t := by
  refine cutAt_zero ?_ ?_
  · have few := (cuts_ascents ['.'] [] t ht).le
    obtain ⟨d, rest, rfl, hd⟩ := ht
    have hslash := separator_cases (P := (· ≠ '/')) (by decide) d hd
    have : ∀ more, '.' :: d :: rest ≠ '.' :: '/' :: more :=
      fun _ heq => hslash (List.cons.inj (List.cons.inj heq).2).1
    have := marks_ascents this (.inl rfl)
    simp only [List.singleton_append, List.length_singleton] at few ⊢
    omega
  · by_cases hslash : ∃ more, '.' :: x = '.' :: '/' :: more
    · obtain ⟨more, heq⟩ := hslash
      refine .inr ⟨?_, fun he => by simp [he] at heq⟩
      simp only [List.singleton_append, heq]
      exact Nat.lt_succ_self 1
    · have := marks_ascents (fun more heq => hslash ⟨more, heq⟩) (.inl rfl)
      by_cases hx : x = []
      · subst hx
        exact .inl this
      · simp only [List.singleton_append, List.length_singleton, ne_eq, hx, not_false_eq_true,
          and_true]
        omega

theorem cuts_marks : Cuts fun text => (lookupMarks text).2 := by
  intro p x t ht
  have plain (c : Char) (p : List Char) (hc : c = '.' ∨ isMark c = false)
      (h : ∀ y more, c :: p ++ y ≠ '.' :: '/' :: more) :
      CutAt (fun text => (lookupMarks text).2) (c :: p) x t :=
    (cuts_ascents (c :: p) x t ht).congr (marks_ascents (h x) hc) (marks_ascents (h t) hc)
  have single (c : Char) (p : List Char) (hc : isMark c) (hdot : c ≠ '.') :
      CutAt (fun text => (lookupMarks text).2) (c :: p) x t := by
    have one (y : List Char) : (lookupMarks (c :: p ++ y)).2 = 1 := marks_one hc hdot _
    exact .within ((one t).trans (one x).symm) (by rw [one x]; simp)
  match p with
  | [] => exact cutAt_nil rfl (marks_of_stops ht)
  | [c] =>
    by_cases hdot : c = '.'
    · subst hdot
      exact cutAt_dot x ht
    · by_cases hmark : isMark c
      · exact single c [] hmark hdot
      · exact plain c [] (.inr (Bool.eq_false_iff.mpr hmark))
          fun _ _ heq => hdot (List.cons.inj heq).1
  | c :: d :: p =>
    by_cases hslash : c = '.' ∧ d = '/'
    · obtain ⟨rfl, rfl⟩ := hslash
      exact .within rfl (by simp [lookupMarks])
    · by_cases hmark : c = '.' ∨ isMark c = false
      · exact plain c (d :: p) hmark fun _ _ heq =>
          hslash ⟨(List.cons.inj heq).1, (List.cons.inj (List.cons.inj heq).2).1⟩
      · obtain ⟨hdot, hmark⟩ := not_or.mp hmark
        exact single c (d :: p) (Bool.not_eq_false _ ▸ hmark) hdot

theorem callable_of_mark {c : Char} (hc : isMark c) (rest : List Char) :
    callableLength (c :: rest) = 0 := by
  have hstart : isNameStart c = false := by
    simp only [isMark, Bool.or_eq_true, decide_eq_true_eq] at hc
    rcases hc with (rfl | rfl) | rfl <;> rfl
  simp [callableLength, nameLength, hstart]

/-- Marks without a name. -/
theorem dotted_of_marks {p t : List Char} (hp : ∀ c ∈ p, isMark c) (ht : Stops t) :
    dottedLength (p ++ t) = 0 := by
  have stops : callableLength t = 0 := Nat.le_zero.mp (cuts_callable [] [] t ht).le
  match p with
  | [] => exact Nat.le_zero.mp (cuts_dotted [] [] t ht).le
  | [c] =>
    by_cases hc : c = '.'
    · subst hc
      exact if_pos stops
    · exact (dottedLength_other hc t).trans (callable_of_mark (hp c (by simp)) t)
  | c :: d :: p =>
    have second := callable_of_mark (hp d (by simp)) (p ++ t)
    by_cases hc : c = '.'
    · subst hc
      exact if_pos second
    · exact (dottedLength_other hc _).trans (callable_of_mark (hp c (by simp)) _)

theorem cuts_ident : Cuts identLength := by
  intro p x t ht
  rcases cuts_marks p x t ht with ⟨heq, hle⟩ | ⟨hle, hlt, hne⟩
  · generalize hn : (lookupMarks (p ++ x)).2 = n at heq hle
    have hlen : (p.take n).length = n := List.length_take_of_le hle
    have part := (cuts_dotted (p.drop n) x t ht).after (f := identLength) (q := p.take n)
      (n := 0) (Nat.zero_le _)
    rw [List.take_append_drop] at part
    refine part ?_ ?_ <;>
      rw [← List.append_assoc, List.take_append_drop, identLength_eq, hlen]
    · rw [hn, List.drop_append_of_le_length hle]
    · rw [heq, List.drop_append_of_le_length hle]
  · have marks : ∀ c ∈ p, isMark c := by
      intro c hc
      refine @isMark_of_mem_marks (p ++ x) c (List.IsPrefix.subset ?_ hc)
      exact List.prefix_of_prefix_length_le (List.prefix_append p x) (List.take_prefix _ _) (by
        rw [List.length_take, List.length_append]
        exact Nat.le_min.mpr ⟨Nat.le_of_lt hlt, Nat.le_add_right ..⟩)
    refine cutAt_zero ?_ ?_
    · rw [identLength_eq, List.drop_append_of_le_length hle]
      exact if_pos (dotted_of_marks (fun c hc => marks c (List.mem_of_mem_drop hc)) ht)
    · rw [identLength_eq]
      split
      · exact .inl rfl
      · exact .inr ⟨by omega, hne⟩

/-! ## Classes -/

theorem cuts_annotated : Cuts fun text => OperandClass.annotated.length text := by
  intro p x t ht
  cases p with
  | nil =>
    obtain ⟨c, rest, rfl, hc⟩ := ht
    refine cutAt_nil rfl ?_
    simp only [OperandClass.length]
    split
    case h_1 heq =>
      exact absurd (List.cons.inj heq).1 (separator_cases (P := (· ≠ '@')) (by decide) c hc)
    case h_2 => rfl
  | cons c p =>
    by_cases hc : c = '@'
    · subst hc
      exact (cuts_callable p x t ht).after (q := ['@']) (n := 0) (by simp) rfl rfl
    · have none (y : List Char) : OperandClass.annotated.length (c :: p ++ y) = 0 := by
        simp only [List.cons_append, OperandClass.length]
        split
        case h_1 heq => exact absurd (List.cons.inj heq).1 hc
        case h_2 => rfl
      exact cutAt_zero (none t) (.inl (none x))

/-- The classes whose lexemes may hold separators, and that of the symbols, which looks at what
follows a tilde. -/
def OperandClass.isPlain : OperandClass → Bool
  | doubleQuoted | singleQuoted | regex | symbol => false
  | _ => true

theorem cuts_plain {cls : OperandClass} (h : cls.isPlain) : Cuts fun text => cls.length text := by
  cases cls with
  | doubleQuoted | singleQuoted | regex | symbol => cases h
  | null | emptyMap | comma => exact cuts_symbols (by decide)
  | bool value => cases value <;> exact cuts_symbols (by decide)
  | int => exact cuts_int
  | hexInt => exact cuts_hex
  | double => exact cuts_double
  | ident => exact cuts_ident
  | path => exact cuts_path
  | annotated => exact cuts_annotated

end TagExpr.Token
