import TagExpr.Proofs.Climbing.Chain
import TagExpr.Proofs.Token.OperandPosition

/-!
# Integer literals

An integer is written with digits, after `0x` if they are those of base sixteen, and perhaps with a
suffix. Where such a literal is the longest lexeme, it is read as its value, or is at fault from its
first to its last character if the value is out of range (`IsInteger.reads`). It is the longest
lexeme wherever it ends (`IsInteger.best`): a name, more digits or the rest of a double would make
it longer.
-/

namespace TagExpr.Token

open Climbing (Radix)

variable {radix : Radix} {digits suffix rest tail : List Char}

/-- The class of the literals with digits of that kind. -/
def integerClass : Radix → OperandClass
  | .decimal => .int
  | .hexadecimal _ => .hexInt

/-- The literal of some digits. -/
def literalOf (radix : Radix) (digits suffix : List Char) : List Char :=
  radix.lead ++ (digits ++ suffix)

/-- Digits and a suffix of which a literal can be made. -/
structure IsInteger (radix : Radix) (digits suffix : List Char) : Prop where
  nonempty : digits ≠ []
  digital : ∀ c ∈ digits, radix.isDigit c
  suffixed : suffix = [] ∨ suffix = ['l'] ∨ suffix = ['L']

/-- The token of an integer, if it is in range. -/
def integerOf (value : Nat) : Except LexFault TokenKind :=
  if value ≤ maxInt then .ok (.int (Int64.ofNat value)) else .error .intOutOfRange

/-- Neither a letter, a digit nor an underscore follows, nor a point with a digit behind it. -/
def NumberEnds (rest : List Char) : Prop :=
  ∀ c more, rest = c :: more → isNamePart c = false ∧
    (c = '.' → ∀ d ∈ more.head?, d.isDigit = false)

theorem numberEnds_nil : NumberEnds [] := nofun

/-! ## The value of digits -/

theorem digitsValue_append (base : Nat) (a b : List Char) :
    digitsValue base (a ++ b) =
      b.foldl (fun value c => base * value + digitsValue.hexValue c) (digitsValue base a) :=
  List.foldl_append

/-- Zeros in front of the digits do not count. -/
theorem digitsValue_zeros (base count : Nat) (digits : List Char) :
    digitsValue base (List.replicate count '0' ++ digits) = digitsValue base digits := by
  have hzero : digitsValue base (List.replicate count '0') = 0 := by
    induction count with
    | zero => rfl
    | succ count ih => exact ih
  rw [digitsValue_append, hzero]
  rfl

theorem hexValue_digitChar {n : Nat} (h : n < 16) : digitsValue.hexValue n.digitChar = n := by
  have all : ∀ n : Fin 16, digitsValue.hexValue (Nat.digitChar n) = n := by decide
  exact all ⟨n, h⟩

/-- Digits are read back as the number that they were written for. -/
theorem digitsValue_toDigits {base : Nat} (hone : 1 < base) (hbase : base ≤ 16) (n : Nat) :
    digitsValue base (Nat.toDigits base n) = n := by
  induction n using Nat.strongRecOn with
  | ind n ih =>
    by_cases hlt : n < base
    · rw [Nat.toDigits_of_lt_base hlt]
      show base * 0 + digitsValue.hexValue n.digitChar = n
      rw [hexValue_digitChar (by omega)]
      omega
    · have hdiv : n / base < n := Nat.div_lt_self (by omega) hone
      have hmod : n % base < base := Nat.mod_lt n (by omega)
      rw [Nat.toDigits_of_base_le hone (by omega), digitsValue_append, ih _ hdiv]
      show base * (n / base) + digitsValue.hexValue (n % base).digitChar = n
      rw [hexValue_digitChar (by omega)]
      exact Nat.div_add_mod n base

theorem hexValue_toLower {c : Char} (h : isHexDigit c) :
    digitsValue.hexValue c.toLower = digitsValue.hexValue c := by
  have all : ∀ n : Fin 103, isHexDigit (Char.ofNat n) →
      digitsValue.hexValue (Char.ofNat n).toLower = digitsValue.hexValue (Char.ofNat n) := by decide
  -- No digit stands beyond the last small letter.
  have hlt : c.toNat < 103 := by
    simp only [isHexDigit, Char.isDigit, Bool.or_eq_true, Bool.and_eq_true, decide_eq_true_eq] at h
    have hle : c.val ≤ 'f'.val := by
      rcases h with (h | h) | h
      · exact UInt32.le_trans h.2 (by decide)
      · exact h.2
      · exact UInt32.le_trans h.2 (by decide)
    exact Nat.lt_succ_of_le hle
  have hc : Char.ofNat c.toNat = c := Char.ofNat_toNat c
  have hall := all ⟨c.toNat, hlt⟩
  simp only [hc] at hall
  exact hall h

/-- The case of the letters among the digits does not count. -/
theorem digitsValue_toLower (h : ∀ c ∈ digits, isHexDigit c) (base : Nat) :
    digitsValue base (digits.map Char.toLower) = digitsValue base digits := by
  unfold digitsValue
  generalize 0 = value
  induction digits generalizing value with
  | nil => rfl
  | cons c digits ih =>
    rw [List.map_cons, List.foldl_cons, List.foldl_cons, hexValue_toLower (h c (by simp))]
    exact ih (fun d hd => h d (by simp [hd])) _

/-! ## The literal -/

namespace IsInteger

variable (h : IsInteger radix digits suffix)

include h

theorem mem_pattern : literalOf radix digits suffix ∈ (integerClass radix).pattern := by
  have hsuffix : suffix ∈ optional longSuffix := by
    rcases h.suffixed with rfl | rfl | rfl
    · exact .inl rfl
    · exact .inr (mem_among.mpr ⟨'l', by simp, rfl⟩)
    · exact .inr (mem_among.mpr ⟨'L', by simp, rfl⟩)
  have hdigits : digits ∈ many1 (oneOf radix.isDigit) := mem_many1_oneOf.mpr ⟨h.nonempty, h.digital⟩
  cases radix with
  | decimal => exact Language.append_mem_mul (a := digits) hdigits hsuffix
  | hexadecimal upper =>
    have hmark : [if upper then 'X' else 'x'] ∈ among ['x', 'X'] :=
      mem_among.mpr ⟨_, by cases upper <;> simp, rfl⟩
    have hnumber := Language.append_mem_mul hmark (Language.append_mem_mul hdigits hsuffix)
    exact Language.append_mem_mul (a := ['0']) (mem_word.mpr rfl) hnumber

theorem head_literal (rest : List Char) :
    ∃ first more, literalOf radix digits suffix ++ rest = first :: more ∧ first.isDigit := by
  cases radix with
  | decimal =>
    obtain ⟨first, more, rfl⟩ := List.exists_cons_of_ne_nil h.nonempty
    exact ⟨first, _, rfl, h.digital first List.mem_cons_self⟩
  | hexadecimal upper => exact ⟨'0', _, rfl, rfl⟩

theorem not_suffix {c : Char} (hc : c ∈ digits) : c ≠ 'l' ∧ c ≠ 'L' := by
  have hdigit := h.digital c hc
  constructor
  · rintro rfl
    cases radix <;> cases hdigit
  · rintro rfl
    cases radix <;> cases hdigit

/-- The suffix is no digit of the value. -/
theorem filter_digits : (digits ++ suffix).filter (fun c => c != 'l' && c != 'L') = digits := by
  have hdigits : digits.filter (fun c => c != 'l' && c != 'L') = digits := by
    refine List.filter_eq_self.mpr fun c hc => ?_
    simp [h.not_suffix hc]
  have hsuffix : suffix.filter (fun c => c != 'l' && c != 'L') = [] := by
    rcases h.suffixed with rfl | rfl | rfl <;> rfl
  rw [List.filter_append, hdigits, hsuffix, List.append_nil]

theorem token_eq : (integerClass radix).token (literalOf radix digits suffix) =
    integerOf (digitsValue radix.base digits) := by
  have hdrop : (literalOf radix digits suffix).drop radix.lead.length = digits ++ suffix := by
    rw [literalOf, List.drop_left]
  have htoken : (integerClass radix).token (literalOf radix digits suffix) =
      intToken radix.base ((literalOf radix digits suffix).drop radix.lead.length) := by
    cases radix <;> rfl
  rw [htoken, hdrop, intToken, h.filter_digits, integerOf]

/-! ## Where it ends -/

/-- What follows the digits goes on with the suffix, or with no part of a number. -/
theorem head_ending (hrest : NumberEnds rest) : ∀ c more, suffix ++ rest = c :: more →
    c = 'l' ∨ c = 'L' ∨ isNamePart c = false ∧ (c = '.' → ∀ d ∈ more.head?, d.isDigit = false) := by
  intro c more heq
  rcases h.suffixed with rfl | rfl | rfl
  · exact .inr (.inr (hrest c more heq))
  · exact .inl (List.cons.inj heq).1.symm
  · exact .inr (.inl (List.cons.inj heq).1.symm)

theorem isDigit_ending (hrest : NumberEnds rest) :
    ∀ c ∈ (suffix ++ rest).head?, radix.isDigit c = false := by
  intro c hc
  obtain ⟨more, heq⟩ := List.head?_eq_some_iff.mp hc
  rcases h.head_ending hrest c more heq with rfl | rfl | ⟨hpart, -⟩
  · cases radix <;> rfl
  · cases radix <;> rfl
  · have hpart_of_digit : radix.isDigit c → isNamePart c := by
      cases radix with
      | decimal => exact isNamePart_of_isDigit
      | hexadecimal upper => exact isNamePart_of_isHexDigit
    exact Bool.eq_false_iff.mpr fun hdigit => by cases hpart.symm.trans (hpart_of_digit hdigit)

theorem takeWhile_digits (hrest : NumberEnds rest) :
    (digits ++ (suffix ++ rest)).takeWhile radix.isDigit = digits :=
  takeWhile_run h.digital (h.isDigit_ending hrest)

theorem suffixLength_ending (hrest : NumberEnds rest) :
    suffixLength ['l', 'L'] (suffix ++ rest) = suffix.length := by
  rcases h.suffixed with rfl | rfl | rfl
  · cases rest with
    | nil => rfl
    | cons c more =>
      obtain ⟨hpart, -⟩ := hrest c more rfl
      refine if_neg fun hmem => ?_
      have hmem : c = 'l' ∨ c = 'L' := by simpa using hmem
      rcases hmem with rfl | rfl <;> cases hpart
  · rfl
  · rfl

/-- Neither an exponent nor the suffix of a double follows. -/
theorem doubleTailLength_ending (hrest : NumberEnds rest) :
    doubleTailLength (suffix ++ rest) = 0 := by
  have hend := h.head_ending hrest
  generalize suffix ++ rest = ending at hend
  cases ending with
  | nil => rfl
  | cons c more =>
    have hne {x : Char} (hx : isNamePart x) (hl : x ≠ 'l') (hL : x ≠ 'L') : c ≠ x := by
      rintro rfl
      rcases hend c more rfl with heq | heq | ⟨hpart, -⟩
      · exact hl heq
      · exact hL heq
      · cases hpart.symm.trans hx
    have hexponent : exponentLength (c :: more) = 0 := by
      refine if_neg ?_
      rintro (hc | hc)
      · exact hne (by decide) (by decide) (by decide) hc
      · exact hne (by decide) (by decide) (by decide) hc
    have hsuffix : suffixLength ['d', 'D', 'f', 'F'] (c :: more) = 0 := by
      refine if_neg fun hmem => ?_
      have hmem : c = 'd' ∨ c = 'D' ∨ c = 'f' ∨ c = 'F' := by simpa using hmem
      rcases hmem with hc | hc | hc | hc <;>
        exact hne (by decide) (by decide) (by decide) hc
    rw [doubleTailLength, hexponent, List.drop_zero, hsuffix]

/-- A point behind the literal has no digits behind it. -/
theorem doubleLength_ending (hrest : NumberEnds rest) {whole : List Char}
    (hwhole : digitsLength (whole ++ (suffix ++ rest)) = whole.length) :
    doubleLength (whole ++ (suffix ++ rest)) = 0 := by
  have htail := h.doubleTailLength_ending hrest
  have hend := h.head_ending hrest
  generalize suffix ++ rest = ending at *
  simp only [doubleLength, hwhole, List.drop_left']
  split
  case h_1 more =>
    rcases hend '.' more rfl with hc | hc | ⟨-, hdigit⟩
    · cases hc
    · cases hc
    · have hfraction : digitsLength more = 0 := by
        cases more with
        | nil => rfl
        | cons d more => simp [digitsLength, hdigit rfl d rfl]
      rw [if_pos hfraction]
  case h_2 => simp [htail]

end IsInteger

/-- No mark of base sixteen stands behind the first digit. -/
theorem IsInteger.lengths_decimal (h : IsInteger .decimal digits suffix) (hrest : NumberEnds rest) :
    let text := literalOf .decimal digits suffix ++ rest
    intLength text = (literalOf .decimal digits suffix).length ∧ hexLength text = 0 ∧
      doubleLength text = 0 := by
  have htext : literalOf .decimal digits suffix ++ rest = digits ++ (suffix ++ rest) :=
    List.append_assoc digits suffix rest
  have hlength : (literalOf .decimal digits suffix).length = digits.length + suffix.length :=
    @List.length_append _ digits suffix
  have hdigits : digitsLength (digits ++ (suffix ++ rest)) = digits.length :=
    congrArg List.length (h.takeWhile_digits hrest)
  have hpos : digits.length ≠ 0 := fun hzero => h.nonempty (List.length_eq_zero_iff.mp hzero)
  simp only [htext, hlength]
  refine ⟨?_, ?_, h.doubleLength_ending hrest hdigits⟩
  · simp only [intLength, hdigits, List.drop_left', h.suffixLength_ending hrest]
    rw [if_neg hpos]
  · obtain ⟨first, more, rfl⟩ := List.exists_cons_of_ne_nil h.nonempty
    rw [List.cons_append]
    cases hmore : more ++ (suffix ++ rest) with
    | nil => exact hexLength_singleton first
    | cons second after =>
      refine hexLength_other (fun hmark => ?_) after
      -- The second character is a digit, or the first one behind the digits.
      have hpart : second.isDigit ∨ second ∈ (suffix ++ rest).head? := by
        cases more with
        | nil => exact .inr (by rw [show suffix ++ rest = second :: after from hmore]; rfl)
        | cons d more =>
          rw [← (List.cons.inj hmore).1]
          exact .inl (h.digital d (by simp))
      have hname : isNamePart second := by rcases hmark.2 with rfl | rfl <;> rfl
      rcases hpart with hdigit | hhead
      · rcases hmark.2 with rfl | rfl <;> cases hdigit
      · obtain ⟨after', heq⟩ := List.head?_eq_some_iff.mp hhead
        rcases h.head_ending hrest second after' heq with rfl | rfl | ⟨hnone, -⟩
        · simp at hmark
        · simp at hmark
        · cases hnone.symm.trans hname

/-- A decimal integer would end after the leading zero. -/
theorem IsInteger.lengths_hexadecimal {upper : Bool}
    (h : IsInteger (.hexadecimal upper) digits suffix) (hrest : NumberEnds rest) :
    let text := literalOf (.hexadecimal upper) digits suffix ++ rest
    hexLength text = (literalOf (.hexadecimal upper) digits suffix).length ∧ intLength text = 1 ∧
      doubleLength text = 0 := by
  have htext : literalOf (.hexadecimal upper) digits suffix ++ rest =
      '0' :: (if upper then 'X' else 'x') :: (digits ++ (suffix ++ rest)) := by
    simp [literalOf, Radix.lead]
  have hlength : (literalOf (.hexadecimal upper) digits suffix).length =
      2 + digits.length + suffix.length := by
    simp only [literalOf, Radix.lead, List.length_append, List.length_cons, List.length_nil]
    omega
  have htake : (digits ++ (suffix ++ rest)).takeWhile isHexDigit = digits :=
    h.takeWhile_digits hrest
  have hmark : (if upper then 'X' else 'x') = 'x' ∨ (if upper then 'X' else 'x') = 'X' := by
    cases upper <;> simp
  have hpos : digits.length ≠ 0 := fun hzero => h.nonempty (List.length_eq_zero_iff.mp hzero)
  simp only [htext, hlength]
  refine ⟨?_, ?_, ?_⟩
  · simp only [hexLength, if_pos hmark, htake, List.drop_left', h.suffixLength_ending hrest]
    rw [if_neg hpos]
  · cases upper <;> rfl
  · cases upper <;> rfl

/-- The literal is longer than every other lexeme at its place. -/
theorem IsInteger.longestClass?_eq (h : IsInteger radix digits suffix) (hrest : NumberEnds rest) :
    longestClass? (literalOf radix digits suffix ++ rest) =
      some (integerClass radix, (literalOf radix digits suffix).length) := by
  obtain ⟨first, more, hcons, hfirst⟩ := h.head_literal rest
  have hzero := length_of_isDigit hfirst more
  rw [← hcons] at hzero
  have hlong : 0 < (literalOf radix digits suffix).length :=
    List.length_pos_iff.mpr fun hnil =>
      (integerClass radix).nil_not_mem_pattern (hnil ▸ h.mem_pattern)
  have hnumbers : (integerClass radix).length (literalOf radix digits suffix ++ rest) =
        (literalOf radix digits suffix).length ∧
      ∀ other ∈ OperandClass.numbers, other ≠ integerClass radix →
        other.length (literalOf radix digits suffix ++ rest) <
          (literalOf radix digits suffix).length := by
    cases radix with
    | decimal =>
      obtain ⟨hint, hhex, hdouble⟩ := h.lengths_decimal hrest
      refine ⟨hint, fun other ho hne => ?_⟩
      simp only [OperandClass.numbers, List.mem_cons, List.not_mem_nil, or_false] at ho
      rcases ho with rfl | rfl | rfl
      · exact absurd rfl hne
      · exact lt_of_eq_of_lt hhex hlong
      · exact lt_of_eq_of_lt hdouble hlong
    | hexadecimal upper =>
      obtain ⟨hhex, hint, hdouble⟩ := h.lengths_hexadecimal hrest
      have hlonger : 1 < (literalOf (.hexadecimal upper) digits suffix).length := by
        simp only [literalOf, Radix.lead, List.length_append, List.length_cons]
        omega
      refine ⟨hhex, fun other ho hne => ?_⟩
      simp only [OperandClass.numbers, List.mem_cons, List.not_mem_nil, or_false] at ho
      rcases ho with rfl | rfl | rfl
      · exact lt_of_eq_of_lt hint hlonger
      · exact absurd rfl hne
      · exact lt_of_eq_of_lt hdouble hlong
  obtain ⟨hlength, hnumbers⟩ := hnumbers
  rw [← hlength] at hlong ⊢
  refine longestClass?_of_lt _ hlong fun other hne => ?_
  have hmem := mem_all other
  simp only [OperandClass.all_eq, List.mem_append] at hmem
  by_cases hnumber : other ∈ OperandClass.numbers
  · rw [hlength]
    exact hnumbers other hnumber hne
  · rw [hzero other (by simp only [List.mem_append]; tauto)]
    exact hlong

/-! ## What is read -/

/-- A literal is the longest lexeme where it ends. -/
theorem IsInteger.best (h : IsInteger radix digits suffix) (hrest : NumberEnds rest) :
    Best (literalOf radix digits suffix ++ rest) (integerClass radix)
      (literalOf radix digits suffix) := by
  obtain ⟨cls, lexeme, hbest⟩ := exists_best h.mem_pattern (List.prefix_append _ rest)
  obtain ⟨first, more, hcons, hfirst⟩ := h.head_literal rest
  have htilde : ¬ "~/".toList <+: literalOf radix digits suffix ++ rest := by
    rintro ⟨after, heq⟩
    rw [hcons] at heq
    obtain rfl : '~' = first := (List.cons.inj heq).1
    cases hfirst
  have hclass := (hbest.longestClass? fun _ => htilde).symm.trans (h.longestClass?_eq hrest)
  obtain ⟨rfl, hlength⟩ := Prod.mk.inj (Option.some.inj hclass)
  have hover :
      overread (integerClass radix) lexeme (literalOf radix digits suffix ++ rest) = 0 := by
    cases radix <;> exact if_neg (by simp [integerClass])
  rw [hover, Nat.add_zero] at hlength
  have hprefix := List.prefix_of_prefix_length_le hbest.head (List.prefix_append _ rest) hlength.le
  exact hprefix.eq_of_length hlength ▸ hbest

/-- Where a literal is the longest lexeme, it is the next token. -/
theorem IsInteger.next_eq (h : IsInteger radix digits suffix)
    (hbest : Best tail (integerClass radix) (literalOf radix digits suffix)) {gap : List Char}
    (hgap : Gap .operand false gap) (offset : Nat) :
    next .operand ⟨offset, gap ++ tail⟩ = take ⟨offset + byteLength gap, tail⟩
      (literalOf radix digits suffix).length (integerOf (digitsValue radix.base digits)) := by
  obtain ⟨rest, rfl⟩ := hbest.head
  obtain ⟨first, more, hcons, hfirst⟩ := h.head_literal rest
  have hclear : Clear (literalOf radix digits suffix ++ rest) := by
    have hslash : first ≠ '/' := by
      rintro rfl
      cases hfirst
    rw [hcons]
    refine clear_of_startsIn (startsIn_cons ?_ fun _ heq => absurd heq hslash)
    exact isSeparator_of_isNamePart (isNamePart_of_isDigit hfirst)
  have hgap : Gap .operand (literalOf radix digits suffix ++ rest).isEmpty gap := by
    rwa [hcons]
  have hnumber : integerClass radix ≠ .symbol ∧ integerClass radix ≠ .path := by
    cases radix <;> simp [integerClass]
  have hover : overread (integerClass radix) (literalOf radix digits suffix)
      (literalOf radix digits suffix ++ rest) = 0 := if_neg fun hpath => hnumber.2 hpath.1
  have hclass := hbest.longestClass? fun hsymbol => absurd hsymbol hnumber.1
  rw [hover, Nat.add_zero] at hclass
  rw [next_of_clear (by simp) hgap hclear, read]
  split
  case h_1 hnil => cases hcons.symm.trans hnil
  case h_2 => simp only [hclass, List.take_left', h.token_eq]

/-- Wherever the literal is the longest lexeme, it is read with that outcome, from its first to its
last character. -/
def IsRead (radix : Radix) (digits suffix : List Char)
    (outcome : Except LexFault TokenKind) : Prop :=
  ∀ before gap tail, Gap .operand false gap →
    Best tail (integerClass radix) (literalOf radix digits suffix) →
      at? .operand (before ++ (gap ++ tail)) (byteLength before) =
        tokenAt outcome (Span.ofRange (byteLength before + byteLength gap)
          (byteLength before + byteLength gap + byteLength (literalOf radix digits suffix)))

/-- A literal is read as its value. -/
theorem IsInteger.isRead (h : IsInteger radix digits suffix) :
    IsRead radix digits suffix (integerOf (digitsValue radix.base digits)) := by
  intro before gap tail hgap hbest
  rw [at?_eq, h.next_eq hbest hgap]
  obtain ⟨rest, rfl⟩ := hbest.head
  cases integerOf (digitsValue radix.base digits) <;>
    simp [take, tokenAt, spanOf, Cursor.advance, Except.map]

/-- Zeros in front of the digits of a literal make one with the same value. -/
theorem IsInteger.zeros (h : IsInteger radix digits suffix) (count : Nat) :
    IsInteger radix (List.replicate count '0' ++ digits) suffix where
  nonempty := by simp [h.nonempty]
  digital c hc := by
    rcases List.mem_append.mp hc with hc | hc
    · rw [List.eq_of_mem_replicate hc]
      cases radix <;> rfl
    · exact h.digital c hc
  suffixed := h.suffixed

theorem isInteger_toDigits (n : Nat) (hs : suffix = [] ∨ suffix = ['l'] ∨ suffix = ['L']) :
    IsInteger .decimal (Nat.toDigits 10 n) suffix where
  nonempty := Nat.toDigits_ne_nil
  digital _ hc := Nat.isDigit_of_mem_toDigits (by decide) (by decide) hc
  suffixed := hs

end TagExpr.Token
