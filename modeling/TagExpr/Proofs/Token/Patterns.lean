import Mathlib.Data.List.TakeWhile
import Mathlib.Tactic.Abel
import TagExpr.Proofs.Token.Measures
import TagExpr.Proofs.Token.NameTokens

/-!
# Patterns of operands

The pattern of each class of tokens that may start an operand. The lengths by which the lexer finds
lexemes measure the patterns (`measures_pattern`) but for two: a path takes a slash behind it along,
and a tilde before a slash is no symbol.
-/

open scoped Computability

namespace TagExpr.Token

variable {text w rest : List Char}

/-! ## Numbers -/

def digits : Language Char := many1 (oneOf Char.isDigit)

def exponent : Language Char := among ['e', 'E'] * (optional (among ['+', '-']) * digits)

def longSuffix : Language Char := among ['l', 'L']

def doubleSuffix : Language Char := among ['d', 'D', 'f', 'F']

theorem nil_not_mem_digits : [] ∉ digits := fun h => (mem_many1_oneOf.mp h).1 rfl

theorem measures_digits : Measures digitsLength digits := measures_run _

theorem sharp_digits {M : Language Char}
    (hM : ∀ m ∈ M, ∃ c more, m = c :: more ∧ c.isDigit = false) :
    Sharp digitsLength digits M := sharp_run hM

theorem sharp_digits_among {letters : List Char} (h : letters.all (!·.isDigit)) :
    Sharp digitsLength digits (among letters) := by
  refine sharp_digits ?_
  rintro _ ⟨c, hc, rfl⟩
  exact ⟨c, [], rfl, by simpa using List.all_eq_true.mp h c (by simpa using hc)⟩

theorem digits_head (h : w ∈ digits) : ∃ c more, w = c :: more ∧ c.isDigit := by
  obtain ⟨hne, hall⟩ := mem_many1_oneOf.mp h
  obtain ⟨c, more, rfl⟩ := List.exists_cons_of_ne_nil hne
  exact ⟨c, more, rfl, hall c (by simp)⟩

/-- What begins with a digit has no sign. -/
theorem suffixLength_of_digits {letters : List Char} (hletters : letters.all (!·.isDigit))
    (h : w ∈ digits) (rest : List Char) : suffixLength letters (w ++ rest) = 0 := by
  obtain ⟨c, more, rfl, hc⟩ := digits_head h
  refine if_neg fun hmem => ?_
  have := List.all_eq_true.mp hletters c (by simpa using hmem)
  simp [hc] at this

theorem measures_int : Measures intLength (digits * optional longSuffix) :=
  measures_digits.needs (measures_among _) (sharp_digits_among (by decide)) nil_not_mem_digits

/-- The digits of an exponent, which may have a sign. -/
theorem signedLength_of_mem (h : w ∈ optional (among ['+', '-']) * digits) (rest : List Char) :
    ∃ sign number, w = sign ++ number ∧ number ∈ digits ∧
      signedLength (w ++ rest) = sign.length + digitsLength (number ++ rest) := by
  obtain ⟨sign, hsign, number, hnumber, rfl⟩ := Language.mem_mul.mp h
  have hpos := List.length_pos_iff.mpr (mem_many1_oneOf.mp hnumber).1
  have hle := measures_digits.complete number hnumber rest
  have hlength : suffixLength ['+', '-'] (sign ++ (number ++ rest)) = sign.length := by
    rcases mem_optional.mp hsign with rfl | ⟨c, hc, rfl⟩
    · exact suffixLength_of_digits (by decide) hnumber rest
    · exact if_pos hc
  refine ⟨sign, number, rfl, hnumber, ?_⟩
  simp only [signedLength, List.append_assoc, hlength, List.drop_left]
  rw [if_neg (by omega)]

theorem measures_signed : Measures signedLength (optional (among ['+', '-']) * digits) where
  sound text h := by
    have hsign := (measures_among ['+', '-']).sound text
    simp only [signedLength] at h ⊢
    split at h
    case isTrue => cases h
    case isFalse hne =>
      rw [if_neg hne, List.take_add]
      refine Language.append_mem_mul ?_ (measures_digits.sound _ (Nat.pos_of_ne_zero hne))
      rcases Nat.eq_zero_or_pos (suffixLength ['+', '-'] text) with hzero | hpos
      · exact mem_optional.mpr (.inl (by rw [hzero]; rfl))
      · exact mem_optional.mpr (.inr (hsign hpos))
  complete w hw rest := by
    obtain ⟨sign, number, rfl, hnumber, hlength⟩ := signedLength_of_mem hw rest
    have := measures_digits.complete number hnumber rest
    rw [hlength, List.length_append]
    omega

theorem nil_not_mem_signed : [] ∉ optional (among ['+', '-']) * digits := by
  intro h
  obtain ⟨sign, -, number, hnumber, heq⟩ := Language.mem_mul.mp h
  exact (mem_many1_oneOf.mp hnumber).1 (List.append_eq_nil_iff.mp heq).2

theorem sharp_signed : Sharp signedLength (optional (among ['+', '-']) * digits) doubleSuffix := by
  intro w hw m hm rest
  obtain ⟨sign, number, rfl, hnumber, hlength⟩ := signedLength_of_mem hw (m ++ rest)
  have hexact : digitsLength (number ++ (m ++ rest)) = number.length :=
    sharp_digits_among (by decide) number hnumber m hm rest
  rw [hlength, hexact, List.length_append]

theorem exponentLength_eq (text : List Char) : exponentLength text =
    if suffixLength ['e', 'E'] text = 0 then 0
    else if signedLength (text.drop (suffixLength ['e', 'E'] text)) = 0 then 0
    else suffixLength ['e', 'E'] text +
      signedLength (text.drop (suffixLength ['e', 'E'] text)) := by
  cases text with
  | nil => rfl
  | cons c rest =>
    by_cases hc : c = 'e' ∨ c = 'E'
    · have hsuffix : suffixLength ['e', 'E'] (c :: rest) = 1 := if_pos (by simpa using hc)
      rw [hsuffix, exponentLength, if_pos hc, if_neg Nat.one_ne_zero, List.drop_one, List.tail_cons]
      simp only [signedLength]
      split
      · rfl
      · rw [if_neg (by omega)]
        omega
    · have hsuffix : suffixLength ['e', 'E'] (c :: rest) = 0 := if_neg (by simpa using hc)
      rw [hsuffix, exponentLength, if_neg hc, if_pos rfl]

theorem measures_exponent : Measures exponentLength exponent :=
  ((measures_among _).requires measures_signed sharp_among nil_not_mem_among
    nil_not_mem_signed).congr exponentLength_eq

/-- What makes digits without a point a double. -/
def doubleTail : Language Char := exponent * optional doubleSuffix + doubleSuffix

theorem exponent_head (h : w ∈ exponent) : ∃ c more, w = c :: more ∧ (c = 'e' ∨ c = 'E') := by
  obtain ⟨_, ⟨c, hc, rfl⟩, more, -, rfl⟩ := Language.mem_mul.mp h
  exact ⟨c, more, rfl, by simpa using hc⟩

theorem doubleTail_head (h : w ∈ doubleTail) :
    ∃ c more, w = c :: more ∧ c.isDigit = false ∧ c ≠ '.' := by
  rcases h with h | ⟨c, hc, rfl⟩
  · obtain ⟨_, ha, b, -, rfl⟩ := Language.mem_mul.mp h
    obtain ⟨c, more, rfl, hc⟩ := exponent_head ha
    exact ⟨c, more ++ b, rfl, by rcases hc with rfl | rfl <;> decide⟩
  · have hmem : c = 'd' ∨ c = 'D' ∨ c = 'f' ∨ c = 'F' := by simpa using hc
    exact ⟨c, [], rfl, by rcases hmem with rfl | rfl | rfl | rfl <;> decide⟩

theorem sharp_exponent : Sharp exponentLength (optional exponent) doubleSuffix := by
  rintro w (rfl | hw) m hm rest
  · obtain ⟨c, hc, rfl⟩ := hm
    have hmem : c = 'd' ∨ c = 'D' ∨ c = 'f' ∨ c = 'F' := by simpa using hc
    exact if_neg (by rcases hmem with rfl | rfl | rfl | rfl <;> decide)
  · rw [exponentLength_eq]
    exact sharp_among.requires sharp_signed nil_not_mem_among nil_not_mem_signed w hw m hm rest

theorem measures_doubleTail : Measures doubleTailLength doubleTail :=
  measures_exponent.either (measures_among _) sharp_exponent

/-- A point with digits after it, or an exponent or a suffix. -/
theorem measures_fraction : Measures
    (fun text => if digitsLength text = 0 then 0
      else digitsLength text + doubleTailLength (text.drop (digitsLength text)))
    (digits * optional doubleTail) :=
  measures_digits.needs measures_doubleTail
    (sharp_digits fun _ hm => (doubleTail_head hm).imp fun _ h => h.imp fun _ h => ⟨h.1, h.2.1⟩)
    nil_not_mem_digits

/-- The four ways to write a double. -/
def doublePattern : Language Char :=
  digits * word "." * digits * optional exponent * optional doubleSuffix +
  word "." * digits * optional exponent * optional doubleSuffix +
  digits * exponent * optional doubleSuffix +
  digits * doubleSuffix

theorem doublePattern_eq : doublePattern =
    optional digits * (word "." * (digits * optional doubleTail)) + digits * doubleTail := by
  simp only [doublePattern, doubleTail, optional, mul_add, add_mul, mul_one, one_mul, mul_assoc]
  abel

/-- Digits, and a point or an exponent or a suffix behind them. -/
theorem doubleLength_append {whole : List Char} (hwhole : ∀ c ∈ whole, c.isDigit)
    (hrest : ∀ c ∈ rest.head?, c.isDigit = false) : doubleLength (whole ++ rest) =
      if fractionLength whole.length rest = 0 then 0
      else whole.length + fractionLength whole.length rest := by
  have hlength : digitsLength (whole ++ rest) = whole.length :=
    congrArg List.length (takeWhile_run hwhole hrest)
  rw [doubleLength_eq, hlength, List.drop_left]

theorem mem_optional_digits : w ∈ optional digits ↔ ∀ c ∈ w, c.isDigit := by
  rw [mem_optional, digits, mem_many1_oneOf]
  constructor
  · rintro (rfl | ⟨-, h⟩)
    · simp
    · exact h
  · intro h
    by_cases hw : w = []
    · exact .inl hw
    · exact .inr ⟨hw, h⟩

theorem take_digitsLength_mem (text : List Char) :
    text.take (digitsLength text) ∈ optional digits := by
  rw [mem_optional_digits, digitsLength, ← List.prefix_iff_eq_take.mp (List.takeWhile_prefix _)]
  exact fun c hc => List.all_eq_true.mp List.all_takeWhile c hc

theorem measures_double : Measures doubleLength doublePattern where
  sound text h := by
    have hwhole := take_digitsLength_mem text
    rw [doubleLength_eq] at h ⊢
    split at h
    case isTrue => cases h
    case isFalse hne =>
      rw [if_neg hne, List.take_add, doublePattern_eq]
      cases hdrop : text.drop (digitsLength text) with
      | nil =>
        rw [hdrop] at hne
        exact absurd (ite_self 0) hne
      | cons c more =>
        by_cases hc : c = '.'
        · subst hc
          rw [hdrop, fractionLength] at hne
          rw [fractionLength]
          split at hne
          case isTrue => exact absurd rfl hne
          case isFalse hdigits =>
            have hfraction := measures_fraction.sound more
            rw [if_neg hdigits] at hfraction
            rw [if_neg hdigits, Nat.add_comm, List.take_succ_cons]
            exact .inl (Language.append_mem_mul hwhole
              (Language.append_mem_mul (mem_word.mpr rfl) (hfraction (by omega))))
        · have hplain : fractionLength (digitsLength text) (c :: more) =
              if digitsLength text = 0 then 0 else doubleTailLength (c :: more) := by
            unfold fractionLength
            split
            case h_1 heq => exact absurd (List.cons.inj heq).1 hc
            case h_2 => rfl
          rw [hdrop, hplain] at hne
          rw [hplain]
          split at hne
          case isTrue => exact absurd rfl hne
          case isFalse hdigits =>
            rw [if_neg hdigits]
            exact .inr (Language.append_mem_mul
              (measures_digits.sound text (Nat.pos_of_ne_zero hdigits))
              (measures_doubleTail.sound _ (Nat.pos_of_ne_zero hne)))
  complete := by
    rw [doublePattern_eq]
    rintro w (hw | hw) rest
    · obtain ⟨whole, hwhole, _, hpoint, rfl⟩ := Language.mem_mul.mp hw
      obtain ⟨_, hword, fraction, hfraction, rfl⟩ := Language.mem_mul.mp hpoint
      obtain rfl := mem_word.mp hword
      have hle := measures_fraction.complete fraction hfraction rest
      have hpos : 0 < fraction.length := by
        obtain ⟨number, hnumber, more, -, rfl⟩ := Language.mem_mul.mp hfraction
        have := List.length_pos_iff.mpr (mem_many1_oneOf.mp hnumber).1
        rw [List.length_append]
        omega
      split at hle
      case isTrue => omega
      case isFalse hdigits =>
        have hlength : fractionLength whole.length ('.' :: (fraction ++ rest)) =
            1 + (digitsLength (fraction ++ rest) +
              doubleTailLength ((fraction ++ rest).drop (digitsLength (fraction ++ rest)))) :=
          if_neg hdigits
        have htext : whole ++ (".".toList ++ fraction) ++ rest =
            whole ++ '.' :: (fraction ++ rest) := by simp
        rw [htext, doubleLength_append (mem_optional_digits.mp hwhole) (by simp), hlength,
          if_neg (by omega)]
        simp only [List.length_append]
        show whole.length + (1 + fraction.length) ≤ _
        omega
    · obtain ⟨whole, hwhole, tail, htail, rfl⟩ := Language.mem_mul.mp hw
      obtain ⟨hne, hdigits⟩ := mem_many1_oneOf.mp hwhole
      have hpos := List.length_pos_iff.mpr hne
      have hle := measures_doubleTail.complete tail htail rest
      obtain ⟨c, more, rfl, hdigit, hdot⟩ := doubleTail_head htail
      have hlength : fractionLength whole.length (c :: (more ++ rest)) =
          doubleTailLength (c :: (more ++ rest)) := by
        unfold fractionLength
        split
        case h_1 heq => exact absurd (List.cons.inj heq).1 hdot
        case h_2 => exact if_neg (by omega)
      rw [List.append_assoc, List.cons_append,
        doubleLength_append hdigits (by simpa using hdigit), hlength]
      rw [List.cons_append, List.length_cons] at hle
      rw [if_neg (by omega)]
      simp only [List.length_append, List.length_cons]
      omega

/-! ### Numbers in base sixteen -/

def hexPattern : Language Char :=
  word "0" * (among ['x', 'X'] * (many1 (oneOf isHexDigit) * optional longSuffix))

theorem measures_hexDigits : Measures
    (fun text => if (text.takeWhile isHexDigit).length = 0 then 0
      else (text.takeWhile isHexDigit).length +
        suffixLength ['l', 'L'] (text.drop (text.takeWhile isHexDigit).length))
    (many1 (oneOf isHexDigit) * optional longSuffix) := by
  refine (measures_run _).needs (measures_among _) (sharp_run ?_)
    fun h => (mem_many1_oneOf.mp h).1 rfl
  rintro _ ⟨c, hc, rfl⟩
  have hmem : c = 'l' ∨ c = 'L' := by simpa using hc
  exact ⟨c, [], rfl, by rcases hmem with rfl | rfl <;> decide⟩

theorem measures_hex : Measures hexLength hexPattern where
  sound text h := by
    match text with
    | [] | [_] => simp [hexLength] at h
    | zero :: mark :: rest =>
      by_cases hx : zero = '0' ∧ (mark = 'x' ∨ mark = 'X')
      · obtain ⟨rfl, hmark⟩ := hx
        have hdigits := measures_hexDigits.sound rest
        simp only [hexLength, if_pos hmark] at h ⊢
        split at h
        case isTrue => cases h
        case isFalse hne =>
          rw [if_neg hne] at hdigits
          rw [if_neg hne, show 2 + (rest.takeWhile isHexDigit).length +
            suffixLength ['l', 'L'] (rest.drop (rest.takeWhile isHexDigit).length) =
            (rest.takeWhile isHexDigit).length +
            suffixLength ['l', 'L'] (rest.drop (rest.takeWhile isHexDigit).length) + 2 by omega]
          exact Language.append_mem_mul (mem_word.mpr rfl)
            (Language.append_mem_mul (mem_among.mpr ⟨mark, by simpa using hmark, rfl⟩)
              (hdigits (by omega)))
      · rw [hexLength_other hx] at h
        cases h
  complete w hw rest := by
    obtain ⟨_, hzero, _, hmark, rfl⟩ := Language.mem_mul.mp hw
    obtain ⟨_, hletter, number, hnumber, rfl⟩ := Language.mem_mul.mp hmark
    obtain ⟨mark, hmem, rfl⟩ := mem_among.mp hletter
    obtain rfl := mem_word.mp hzero
    have hmem : mark = 'x' ∨ mark = 'X' := by simpa using hmem
    have hle := measures_hexDigits.complete number hnumber rest
    simp only [List.length_append]
    show 1 + (1 + number.length) ≤ hexLength ('0' :: mark :: (number ++ rest))
    have hpos : 0 < number.length := by
      obtain ⟨run, hrun, more, -, rfl⟩ := Language.mem_mul.mp hnumber
      have := List.length_pos_iff.mpr (mem_many1_oneOf.mp hrun).1
      rw [List.length_append]
      omega
    simp only [hexLength, if_pos hmem]
    split at hle
    · omega
    · rw [if_neg (by assumption)]
      omega

/-! ## Quoted literals -/

/-- What may stand between the quotes of a literal: characters other than the closer and the
backslash, and any character but a line feed behind a backslash. -/
def quotedPart (closer : Char) (multiline : Bool) : Language Char :=
  oneOf (fun c => c != closer && c != '\\' && (multiline || c != '\n')) +
    among ['\\'] * oneOf (· != '\n')

theorem quotedExtent_of_mem {closer : Char} {multiline : Bool} (hcloser : closer ≠ '\\')
    (h : w ∈ (quotedPart closer multiline)∗) (rest : List Char) :
    quotedExtent closer multiline (w ++ closer :: rest) = ⟨w.length + 1, true⟩ := by
  obtain ⟨parts, rfl, hparts⟩ := Language.mem_kstar.mp h
  clear h
  induction parts with
  | nil =>
    rw [List.flatten_nil, List.nil_append, quotedExtent_plain hcloser, if_pos rfl]
    rfl
  | cons part parts ih =>
    have ih := ih fun part hpart => hparts part (List.mem_cons_of_mem _ hpart)
    rcases hparts part List.mem_cons_self with ⟨c, hc, rfl⟩ | hescape
    · simp only [Bool.and_eq_true, Bool.or_eq_true, bne_iff_ne, ne_eq] at hc
      obtain ⟨⟨hne, hbackslash⟩, hline⟩ := hc
      rw [List.flatten_cons, List.append_assoc, List.singleton_append,
        quotedExtent_plain hbackslash, if_neg hne,
        if_neg (by rcases hline with h | h <;> simp [h]), ih, Extent.after]
      simp only [List.length_append, List.length_singleton]
      rw [← Nat.add_assoc]
    · obtain ⟨_, ⟨b, hb, rfl⟩, _, ⟨c, hc, rfl⟩, rfl⟩ := Language.mem_mul.mp hescape
      obtain rfl : b = '\\' := by simpa using hb
      have hline : c ≠ '\n' := by simpa using hc
      rw [List.flatten_cons, List.append_assoc]
      simp only [List.cons_append, List.nil_append, quotedExtent, if_neg hline, ih, Extent.after,
        List.length_cons]
      rw [Nat.add_comm, Nat.add_right_comm]

theorem mem_of_quotedExtent {closer : Char} {multiline : Bool}
    (h : (quotedExtent closer multiline text).closed) :
    ∃ body ∈ (quotedPart closer multiline)∗, ∃ rest, text = body ++ closer :: rest := by
  fun_induction quotedExtent closer multiline text with
  | case1 | case2 | case3 | case6 => cases h
  | case4 c rest hline ih =>
    obtain ⟨_, hbody, after, rfl⟩ := ih h
    obtain ⟨parts, rfl, hparts⟩ := Language.mem_kstar.mp hbody
    have hpart : ['\\', c] ∈ quotedPart closer multiline :=
      .inr (Language.mem_mul.mpr
        ⟨['\\'], ⟨'\\', rfl, rfl⟩, [c], ⟨c, by simpa using hline, rfl⟩, rfl⟩)
    exact ⟨(['\\', c] :: parts).flatten,
      Language.join_mem_kstar (List.forall_mem_cons.mpr ⟨hpart, hparts⟩), after, rfl⟩
  | case5 rest => exact ⟨[], Language.nil_mem_kstar _, rest, rfl⟩
  | case7 c rest hescape hcloser hline ih =>
    obtain ⟨_, hbody, after, rfl⟩ := ih h
    obtain ⟨parts, rfl, hparts⟩ := Language.mem_kstar.mp hbody
    have hline : multiline = true ∨ c ≠ '\n' := by
      cases multiline with
      | true => exact .inl rfl
      | false => exact .inr (by simpa using hline)
    have hpart : [c] ∈ quotedPart closer multiline := by
      refine .inl ⟨c, ?_, rfl⟩
      simp only [Bool.and_eq_true, Bool.or_eq_true, bne_iff_ne]
      exact ⟨⟨hcloser, hescape⟩, hline⟩
    exact ⟨([c] :: parts).flatten,
      Language.join_mem_kstar (List.forall_mem_cons.mpr ⟨hpart, hparts⟩), after, rfl⟩

/-- A string literal in the given quotes. -/
def quotedPattern (quote : Char) : Language Char :=
  among [quote] * ((quotedPart quote true)∗ * among [quote])

def regexPattern : Language Char := word "~/" * ((quotedPart '/' false)∗ * among ['/'])

theorem mem_closed {closer : Char} {multiline : Bool} :
    w ∈ (quotedPart closer multiline)∗ * among [closer] ↔
      ∃ body ∈ (quotedPart closer multiline)∗, w = body ++ [closer] := by
  rw [Language.mem_mul]
  constructor
  · rintro ⟨body, hbody, _, hcloser, rfl⟩
    obtain ⟨c, hc, rfl⟩ := mem_among.mp hcloser
    exact ⟨body, hbody, by rw [List.mem_singleton.mp hc]⟩
  · rintro ⟨body, hbody, rfl⟩
    exact ⟨body, hbody, _, mem_among.mpr ⟨closer, List.mem_singleton_self _, rfl⟩, rfl⟩

/-- The part of a literal behind its opener, which has `count` characters. -/
theorem take_closedLength {closer : Char} {multiline : Bool} {count : Nat}
    (hcloser : closer ≠ '\\')
    (h : 0 < closedLength (some ((quotedExtent closer multiline text).after count))) :
    ∃ more ∈ (quotedPart closer multiline)∗ * among [closer],
      closedLength (some ((quotedExtent closer multiline text).after count)) =
        count + more.length ∧ text.take more.length = more := by
  obtain ⟨hclosed, hlength⟩ := closedLength_after count h
  obtain ⟨body, hbody, rest, rfl⟩ := mem_of_quotedExtent hclosed
  have hsplit : body ++ closer :: rest = (body ++ [closer]) ++ rest := by simp
  refine ⟨body ++ [closer], mem_closed.mpr ⟨body, hbody, rfl⟩, ?_, by rw [hsplit, List.take_left]⟩
  rw [hlength, quotedExtent_of_mem hcloser hbody, List.length_append, List.length_singleton]

theorem closedLength_of_closed {closer : Char} {multiline : Bool} (hcloser : closer ≠ '\\')
    (h : w ∈ (quotedPart closer multiline)∗ * among [closer]) (count : Nat) (rest : List Char) :
    closedLength (some ((quotedExtent closer multiline (w ++ rest)).after count)) =
      count + w.length := by
  obtain ⟨body, hbody, rfl⟩ := mem_closed.mp h
  rw [List.append_assoc, List.singleton_append, quotedExtent_of_mem hcloser hbody, Extent.after,
    closedLength, List.length_append, List.length_singleton]

theorem measures_quoted {quote : Char} (hquote : quote ≠ '\\') :
    Measures (fun text => closedLength (stringExtent? quote text)) (quotedPattern quote) where
  sound text h := by
    cases text with
    | nil => cases h
    | cons c rest =>
      by_cases hc : c = quote
      · rw [stringExtent?, if_pos hc] at h ⊢
        obtain ⟨more, hmore, hlength, htake⟩ := take_closedLength hquote h
        rw [hlength, Nat.add_comm, List.take_succ_cons, htake]
        exact Language.append_mem_mul (mem_among.mpr ⟨c, by simp [hc], rfl⟩) hmore
      · rw [stringExtent?, if_neg hc] at h
        cases h
  complete w hw rest := by
    obtain ⟨_, hopen, more, hmore, rfl⟩ := Language.mem_mul.mp hw
    obtain ⟨c, hc, rfl⟩ := mem_among.mp hopen
    show ([c] ++ more).length ≤ closedLength (stringExtent? quote (c :: (more ++ rest)))
    rw [stringExtent?, if_pos (List.mem_singleton.mp hc), closedLength_of_closed hquote hmore,
      List.length_append, List.length_singleton]

theorem measures_regex :
    Measures (fun text => closedLength (regexExtent? text)) regexPattern where
  sound text h := by
    unfold regexExtent? at h ⊢
    split at h
    case h_2 => cases h
    case h_1 rest =>
      obtain ⟨more, hmore, hlength, htake⟩ := take_closedLength (by decide) h
      rw [hlength, Nat.add_comm, List.take_succ_cons, List.take_succ_cons, htake]
      exact Language.append_mem_mul (mem_word.mpr rfl) hmore
  complete w hw rest := by
    obtain ⟨_, hopen, more, hmore, rfl⟩ := Language.mem_mul.mp hw
    obtain rfl := mem_word.mp hopen
    have hlength : closedLength (regexExtent? ("~/".toList ++ more ++ rest)) = 2 + more.length :=
      closedLength_of_closed (by decide) hmore 2 rest
    rw [hlength, List.length_append]
    exact Nat.le_refl _

/-! ## Names -/

def namePattern : Language Char := oneOf isNameStart * (oneOf isNamePart)∗

/-- A name, with the parenthesis of a call head. -/
def callablePattern : Language Char := namePattern * optional (among ['('])

/-- The marks that select a frame. -/
def framePattern : Language Char :=
  optional (word "./" + many1 (word "../") + word "/" + word "\\")

/-- A name that may have a dot before it. -/
def dottedPattern : Language Char := optional (among ['.']) * callablePattern

theorem mem_namePattern : w ∈ namePattern ↔ Signature.IsName w := by
  rw [namePattern, Language.mem_mul]
  constructor
  · rintro ⟨_, ⟨c, hc, rfl⟩, more, hmore, rfl⟩
    refine ⟨by simp, ?_⟩
    rw [List.singleton_append, nameLength, if_pos hc,
      List.takeWhile_eq_self_iff.mpr (mem_star_oneOf.mp hmore), List.length_cons, Nat.add_comm]
  · intro h
    obtain ⟨c, more, rfl, hc, hmore⟩ := h.cons
    exact ⟨[c], ⟨c, hc, rfl⟩, more, mem_star_oneOf.mpr hmore, rfl⟩

theorem nil_not_mem_name : [] ∉ namePattern := fun h => (mem_namePattern.mp h).1 rfl

theorem measures_name : Measures nameLength namePattern where
  sound text h := by
    obtain ⟨name, rest, rfl, hname, -, hlength⟩ := name_cases (Nat.ne_of_gt h)
    rw [hlength, List.take_left]
    exact mem_namePattern.mpr hname
  complete w hw rest := by
    obtain ⟨c, more, rfl, hc, hmore⟩ := (mem_namePattern.mp hw).cons
    rw [List.cons_append, nameLength, if_pos hc, List.takeWhile_append_of_pos hmore]
    simp only [List.length_cons, List.length_append]
    omega

theorem measures_callable : Measures callableLength callablePattern := by
  refine Measures.congr (measures_name.needs (measures_among ['(']) ?_ nil_not_mem_name)
    callableLength_eq
  intro name hname paren hparen rest
  obtain ⟨c, hc, rfl⟩ := mem_among.mp hparen
  obtain rfl := List.mem_singleton.mp hc
  exact (mem_namePattern.mp hname).length (by simp [Signature.EndsName]; decide)

theorem callable_head (h : w ∈ callablePattern) : ∃ c more, w = c :: more ∧ isNameStart c := by
  obtain ⟨name, hname, paren, -, rfl⟩ := Language.mem_mul.mp h
  exact IsName.head (mem_namePattern.mp hname) paren

theorem measures_dotted : Measures dottedLength dottedPattern where
  sound text h := by
    unfold dottedLength at h ⊢
    split at h
    case h_1 rest =>
      split at h
      case isTrue => cases h
      case isFalse hne =>
        rw [if_neg hne, Nat.add_comm, List.take_succ_cons]
        exact Language.append_mem_mul (mem_optional.mpr (.inr (mem_among.mpr ⟨'.', by simp, rfl⟩)))
          (measures_callable.sound rest (Nat.pos_of_ne_zero hne))
    case h_2 =>
      exact Language.append_mem_mul (mem_optional.mpr (.inl rfl)) (measures_callable.sound _ h)
  complete w hw rest := by
    obtain ⟨dot, hdot, name, hname, rfl⟩ := Language.mem_mul.mp hw
    have hle := measures_callable.complete name hname rest
    obtain ⟨c, more, rfl, hc⟩ := callable_head hname
    rcases mem_optional.mp hdot with rfl | hdot
    · rw [List.nil_append, List.cons_append,
        dottedLength_other (isNamePart_ne (isNamePart_of_isNameStart hc) (by decide))]
      exact hle
    · obtain ⟨d, hd, rfl⟩ := mem_among.mp hdot
      obtain rfl := List.mem_singleton.mp hd
      show ('.' :: c :: more).length ≤ dottedLength ('.' :: (c :: more ++ rest))
      simp only [List.length_cons] at hle ⊢
      rw [dottedLength, if_neg (by omega)]
      omega

theorem mem_framePattern : w ∈ framePattern ↔ ∃ lookup, Marks lookup w := by
  constructor
  · rintro (rfl | ((h | h) | h) | h)
    · exact ⟨_, .none⟩
    · obtain rfl := mem_word.mp h
      exact ⟨_, .here⟩
    · obtain ⟨n, rfl⟩ := mem_many1_word.mp h
      exact ⟨_, .up n⟩
    · obtain rfl := mem_word.mp h
      exact ⟨_, .slash⟩
    · obtain rfl := mem_word.mp h
      exact ⟨_, .backslash⟩
  · rintro ⟨lookup, h⟩
    cases h with
    | none => exact .inl rfl
    | here => exact .inr (.inl (.inl (.inl (mem_word.mpr rfl))))
    | up n => exact .inr (.inl (.inl (.inr (mem_many1_word.mpr ⟨n, rfl⟩))))
    | slash => exact .inr (.inl (.inr (mem_word.mpr rfl)))
    | backslash => exact .inr (.inr (mem_word.mpr rfl))

theorem dotted_head (h : w ∈ dottedPattern) : ∃ c more, w ++ rest = c :: more ∧
    (isNameStart c ∨ c = '.' ∧ ∀ d ∈ more.head?, isNameStart d) := by
  obtain ⟨dot, hdot, name, hname, rfl⟩ := Language.mem_mul.mp h
  obtain ⟨c, more, rfl, hc⟩ := callable_head hname
  rcases mem_optional.mp hdot with rfl | hdot
  · exact ⟨c, more ++ rest, rfl, .inl hc⟩
  · obtain ⟨d, hd, rfl⟩ := mem_among.mp hdot
    exact ⟨d, c :: more ++ rest, rfl, .inr ⟨List.mem_singleton.mp hd, by simpa using hc⟩⟩

/-- Marks before a name, with or without a dot, are found again. -/
theorem lookupMarks_dotted {lookup : Lookup} {marks : List Char} (hm : Marks lookup marks)
    (hw : w ∈ dottedPattern) : lookupMarks (marks ++ (w ++ rest)) = (lookup, marks.length) := by
  obtain ⟨c, more, hcons, hc | ⟨rfl, hmore⟩⟩ := @dotted_head _ rest hw
  · rw [hcons]
    exact lookupMarks_name hm (isNamePart_of_isNameStart hc)
  · have hne {x : Char} (hx : isNameStart x = false) (after : List Char) : more ≠ x :: after := by
      rintro rfl
      cases hx.symm.trans (hmore x rfl)
    have hascents : ascents ('.' :: more) = 0 := by
      unfold ascents
      split
      case h_1 heq => exact absurd (List.cons.inj heq).2 (hne (by decide) _)
      case h_2 => rfl
    have hnone : lookupMarks ('.' :: more) = (.unstated, 0) := by
      unfold lookupMarks
      split
      case h_1 heq => exact absurd (List.cons.inj heq).2 (hne (by decide) _)
      case h_2 heq | h_3 heq => cases (List.cons.inj heq).1
      case h_4 => simp only [hascents]
    rw [hcons]
    exact lookupMarks_marks hm hascents hnone

def identPattern : Language Char := framePattern * dottedPattern

theorem measures_ident : Measures identLength identPattern where
  sound text h := by
    rw [identLength_eq] at h ⊢
    split at h
    case isTrue => cases h
    case isFalse hne =>
      rw [if_neg hne, List.take_add]
      exact Language.append_mem_mul (mem_framePattern.mpr ⟨_, marks_lookup text⟩)
        (measures_dotted.sound _ (Nat.pos_of_ne_zero hne))
  complete w hw rest := by
    obtain ⟨marks, hmarks, name, hname, rfl⟩ := Language.mem_mul.mp hw
    obtain ⟨lookup, hm⟩ := mem_framePattern.mp hmarks
    have hle := measures_dotted.complete name hname rest
    obtain ⟨c, more, hcons, -⟩ := @dotted_head _ [] hname
    have hpos : 0 < name.length := by
      rw [List.append_nil] at hcons
      rw [hcons, List.length_cons]
      omega
    rw [List.append_assoc, identLength_eq, lookupMarks_dotted hm hname, List.drop_left,
      if_neg (by omega), List.length_append]
    omega

theorem nil_not_mem_callable : [] ∉ callablePattern := by
  intro h
  obtain ⟨c, more, heq, -⟩ := callable_head h
  cases heq

def annotatedPattern : Language Char := word (String.singleton '@') * callablePattern

theorem measures_annotated :
    Measures (fun text => OperandClass.annotated.length text) annotatedPattern := by
  refine measures_callable.cons '@' nil_not_mem_callable (fun rest => rfl) fun text hother => ?_
  simp only [OperandClass.length]

/-! ## Paths -/

def pathPattern : Language Char := word "." + word ".." * (word "/..")∗

/-- The length of a path without the slash that may be taken along. -/
def pathReach : List Char → Nat
  | '.' :: '.' :: rest => 2 + 3 * furtherParents rest
  | '.' :: _ => 1
  | _ => 0

theorem furtherParents_append (levels : Nat) (rest : List Char) :
    furtherParents ((List.replicate levels "/..".toList).flatten ++ rest) =
      levels + furtherParents rest := by
  induction levels with
  | zero => simp
  | succ levels ih =>
    rw [List.replicate_succ, List.flatten_cons, List.append_assoc]
    show 1 + furtherParents ((List.replicate levels "/..".toList).flatten ++ rest) = _
    rw [ih]
    omega

theorem take_furtherParents (text : List Char) : text.take (3 * furtherParents text) =
    (List.replicate (furtherParents text) "/..".toList).flatten := by
  fun_induction furtherParents text with
  | case1 rest ih =>
    rw [show 3 * (1 + furtherParents rest) = 3 * furtherParents rest + 3 by omega, Nat.add_comm 1,
      List.replicate_succ, List.flatten_cons, ← ih]
    rfl
  | case2 => rfl

theorem measures_path : Measures pathReach pathPattern where
  sound text := by
    fun_cases pathReach text with
    | case1 rest =>
      intro _
      rw [Nat.add_comm, List.take_succ_cons, List.take_succ_cons, take_furtherParents]
      exact .inr (Language.append_mem_mul (mem_word.mpr rfl) (mem_star_word.mpr ⟨_, rfl⟩))
    | case2 rest => exact fun _ => .inl (mem_word.mpr rfl)
    | case3 => exact fun h => absurd h (Nat.lt_irrefl 0)
  complete := by
    rintro w (hw | hw) rest
    · obtain rfl := mem_word.mp hw
      show 1 ≤ pathReach ('.' :: rest)
      unfold pathReach
      split
      case h_1 => omega
      case h_2 => exact Nat.le_refl 1
      case h_3 hne => exact absurd rfl (hne rest)
    · obtain ⟨_, hword, _, hstar, rfl⟩ := Language.mem_mul.mp hw
      obtain rfl := mem_word.mp hword
      obtain ⟨levels, rfl⟩ := mem_star_word.mp hstar
      have hlength : (List.replicate levels "/..".toList).flatten.length = 3 * levels := by
        simp [Nat.mul_comm]
      have hreach :
          pathReach ('.' :: '.' :: ((List.replicate levels "/..".toList).flatten ++ rest)) =
          2 + 3 * (levels + furtherParents rest) := by rw [pathReach, furtherParents_append]
      rw [List.length_append, hlength]
      refine Nat.le_trans ?_ (Nat.le_of_eq hreach.symm)
      show 2 + 3 * levels ≤ _
      omega

/-! ## Classes -/

namespace OperandClass

/-- The texts that are lexemes of the class. -/
def pattern : OperandClass → Language Char
  | null => word "null"
  | bool true => word "true"
  | bool false => word "false"
  | int => digits * optional longSuffix
  | hexInt => hexPattern
  | double => doublePattern
  | doubleQuoted => quotedPattern '"'
  | singleQuoted => quotedPattern '\''
  | regex => regexPattern
  | ident => identPattern
  | path => pathPattern
  | annotated => annotatedPattern
  | emptyMap => word "[:]"
  | symbol => anyOf symbols
  | comma => word ","

/-- The length of the longest lexeme of the class, as its pattern has it. -/
def reach (text : List Char) : OperandClass → Nat
  | path => pathReach text
  | symbol => symbolLength symbols text
  | cls => cls.length text

theorem measures_pattern (cls : OperandClass) :
    Measures (fun text => cls.reach text) cls.pattern := by
  cases cls with
  | null | emptyMap | comma => exact measures_anyOf _
  | bool value => cases value <;> exact measures_anyOf _
  | int => exact measures_int
  | hexInt => exact measures_hex
  | double => exact measures_double
  | doubleQuoted => exact measures_quoted (by decide)
  | singleQuoted => exact measures_quoted (by decide)
  | regex => exact measures_regex
  | ident => exact measures_ident
  | path => exact measures_path
  | annotated => exact measures_annotated
  | symbol => exact measures_anyOf _

end OperandClass

theorem pathReach_dot {c : Char} (hc : c ≠ '.') (rest : List Char) :
    pathReach ('.' :: c :: rest) = 1 := by
  unfold pathReach
  split
  case h_1 heq => exact absurd (List.cons.inj (List.cons.inj heq).2).1 hc
  case h_2 => rfl
  case h_3 hne => exact absurd rfl (hne _)

theorem pathReach_other {c : Char} (hc : c ≠ '.') (rest : List Char) :
    pathReach (c :: rest) = 0 := by
  unfold pathReach
  split
  case h_1 heq => exact absurd (List.cons.inj heq).1 hc
  case h_2 heq => exact absurd (List.cons.inj heq).1 hc
  case h_3 => rfl

/-- A path of two dots or more takes the slash along that follows it. -/
theorem pathLength_eq (text : List Char) : pathLength text = pathReach text +
    if "..".toList <+: text then suffixLength ['/'] (text.drop (pathReach text)) else 0 := by
  have none {c d : Char} {rest : List Char} (h : ¬ (c = '.' ∧ d = '.')) :
      ¬ "..".toList <+: c :: d :: rest := by
    rintro ⟨after, heq⟩
    obtain ⟨hc, heq⟩ := List.cons.inj heq
    exact h ⟨hc.symm, (List.cons.inj heq).1.symm⟩
  match text with
  | [] => rfl
  | [c] =>
    by_cases hc : c = '.'
    · subst hc
      rfl
    · rw [pathLength_other hc, pathReach_other hc, if_neg (by simp)]
  | c :: d :: rest =>
    by_cases hc : c = '.'
    · subst hc
      by_cases hd : d = '.'
      · subst hd
        rw [if_pos ⟨rest, rfl⟩, pathReach, Nat.add_comm 2 (3 * furtherParents rest),
          List.drop_succ_cons, List.drop_succ_cons, Nat.add_comm _ 2]
        rfl
      · rw [pathLength_dot hd, pathReach_dot hd, if_neg (none fun h => hd h.2)]
    · rw [pathLength_other hc, pathReach_other hc, if_neg (none fun h => hc h.1)]

namespace OperandClass

theorem reach_le_length (cls : OperandClass) (text : List Char) : cls.reach text ≤ text.length := by
  have plain (h : cls.isPlain) : cls.length text ≤ text.length := (cuts_plain h).le_length text
  have quoted {quote : Char} : closedLength (stringExtent? quote text) ≤ text.length := by
    rcases Nat.eq_zero_or_pos (closedLength (stringExtent? quote text)) with hzero | hpos
    · omega
    · obtain ⟨body, rest, heq, hlength⟩ := closedLength_string hpos
      rw [hlength, heq]
      simp
  cases cls with
  | doubleQuoted | singleQuoted => exact quoted
  | regex =>
    show closedLength (regexExtent? text) ≤ text.length
    unfold regexExtent?
    split
    case h_2 => exact Nat.zero_le _
    case h_1 rest =>
      rcases Nat.eq_zero_or_pos (closedLength (some ((quotedExtent '/' false rest).after 2))) with
        hzero | hpos
      · omega
      · obtain ⟨more, -, hlength, htake⟩ := take_closedLength (by decide) hpos
        have := congrArg List.length htake
        rw [List.length_take] at this
        simp only [hlength, List.length_cons]
        omega
  | symbol => exact (cuts_symbols (by decide)).le_length text
  | path =>
    have hlength : pathLength text ≤ text.length := plain rfl
    rw [pathLength_eq] at hlength
    exact Nat.le_trans (Nat.le_add_right _ _) hlength
  | _ => exact plain rfl

end OperandClass

end TagExpr.Token
