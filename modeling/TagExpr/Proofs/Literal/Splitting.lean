import TagExpr.Proofs.Token.Extent
import TagExpr.Proofs.Token.Letters
import TagExpr.Proofs.Token.NameTokens

/-!
# The pieces of a literal

What splitting a literal does with each piece at its head: an escape, an interpolation, a name
behind a dollar sign, any other character.
-/

namespace TagExpr.Literal

variable {offset count : Nat} {rest : List Char} {char : Char}

/-! ## Escapes -/

/-- An escape does not depend on what follows it. -/
theorem escape_take (h : escape offset rest = .ok (char, count)) (offset' : Nat)
    (more : List Char) :
    escape offset' (rest.take (count - 1) ++ more) = .ok (char, count) ∧
      (rest.take (count - 1)).length = count - 1 := by
  unfold escape at h
  split at h
  case h_1 => cases h
  case h_2 digits =>
    split at h
    case h_2 => cases h
    case h_1 a b c d _ =>
      split at h
      case h_2 => cases h
      case h_1 code hcode =>
        split at h
        case h_2 => cases h
        case h_1 found hfound =>
          cases h
          exact ⟨by simp [escape, hcode, hfound], rfl⟩
  case h_3 c rest hu =>
    split at h
    case h_2 => cases h
    case h_1 found hfound =>
      cases h
      refine ⟨?_, rfl⟩
      show escape offset' (c :: more) = _
      unfold escape
      split
      case h_1 heq => cases heq
      case h_2 heq => exact absurd (List.cons.inj heq).1 hu
      case h_3 heq =>
        obtain ⟨rfl, rfl⟩ := List.cons.inj heq
        rw [hfound]

theorem isHexDigit_of_hexDigit? {c : Char} {value : Nat} (h : hexDigit? c = some value) :
    Token.isHexDigit c := by
  unfold hexDigit? at h
  simp only [Token.isHexDigit, Bool.or_eq_true, Bool.and_eq_true, decide_eq_true_eq]
  split at h
  case isTrue hdigit => exact .inl (.inl (by simpa [Char.isDigit, Char.le_def] using hdigit))
  case isFalse =>
    split at h
    case isTrue hlower => exact .inl (.inr hlower)
    case isFalse =>
      split at h
      case isTrue hupper => exact .inr hupper
      case isFalse => cases h

/-- An escape takes one character and the hexadecimal digits behind it. -/
theorem exists_taken (h : escape offset rest = .ok (char, count)) :
    ∃ c digits, rest.take (count - 1) = c :: digits ∧ ∀ d ∈ digits, Token.isHexDigit d := by
  unfold escape at h
  split at h
  case h_1 => cases h
  case h_2 digits =>
    split at h
    case h_2 => cases h
    case h_1 a b c d _ =>
      split at h
      case h_2 => cases h
      case h_1 code hcode =>
        split at h
        case h_2 => cases h
        case h_1 found hfound =>
          cases h
          refine ⟨'u', [a, b, c, d], rfl, ?_⟩
          simp only [hexCode?, Option.bind_eq_bind, Option.bind_eq_some_iff] at hcode
          obtain ⟨va, ha, vb, hb, vc, hc, vd, hd, -⟩ := hcode
          simp only [List.mem_cons, List.not_mem_nil, or_false]
          rintro _ (rfl | rfl | rfl | rfl)
          · exact isHexDigit_of_hexDigit? ha
          · exact isHexDigit_of_hexDigit? hb
          · exact isHexDigit_of_hexDigit? hc
          · exact isHexDigit_of_hexDigit? hd
  case h_3 c rest _ =>
    split at h
    case h_2 => cases h
    case h_1 =>
      cases h
      exact ⟨c, [], rfl, by simp⟩

theorem not_mem_of_isHexDigit {digits : List Char} (h : ∀ d ∈ digits, Token.isHexDigit d) {x : Char}
    (hx : Token.isNamePart x = false) : x ∉ digits := fun hmem =>
  Token.isNamePart_ne (Token.isNamePart_of_isHexDigit (h x hmem)) hx rfl

/-- What an escape takes does not read past the text. -/
theorem length_of_escape (h : escape offset rest = .ok (char, count)) :
    count - 1 ≤ rest.length := by
  have := (escape_take h offset []).2
  rw [List.length_take] at this
  omega

theorem escape_append {p : List Char} (h : escape offset p = .ok (char, count)) (offset' : Nat)
    (rest : List Char) : escape offset' (p ++ rest) = .ok (char, count) := by
  have hescape := (escape_take h offset' (p.drop (count - 1) ++ rest)).1
  rwa [← List.append_assoc, List.take_append_drop] at hescape

/-! ## Splitting -/

/-- What has been dealt with is passed over. -/
theorem splitFrom_skip (gathered p rest : List Char) (offset : Nat) :
    splitFrom p.length offset gathered (p ++ rest) =
      splitFrom 0 (offset + byteLength p) gathered rest := by
  induction p generalizing offset with
  | nil => rfl
  | cons c p ih =>
    rw [List.cons_append, List.length_cons, splitFrom, ih, byteLength, Nat.add_assoc]

/-- An interpolation is split off. -/
theorem splitFrom_expression {source : List Char}
    (hsource : interpolated? 0 none (source ++ '\x7d' :: rest) = some source)
    (hblank : source.all Text.isBlank = false) (offset : Nat) (gathered : List Char) :
    splitFrom 0 offset gathered ('$' :: '\x7b' :: (source ++ '\x7d' :: rest)) =
      (do
        return flush gathered
          (.expression source (offset + 2) ::
            (← splitFrom 0 (offset + byteLength source + 3) [] rest))) := by
  have hne : '$' ≠ '\\' := by decide
  have htext : '\x7b' :: (source ++ '\x7d' :: rest) = ('\x7b' :: (source ++ ['\x7d'])) ++ rest := by
    simp
  have hlength : source.length + 2 = ('\x7b' :: (source ++ ['\x7d'])).length := by simp
  have hplace : offset + 1 + byteLength ('\x7b' :: (source ++ ['\x7d'])) =
      offset + byteLength source + 3 := by
    have size : '\x7b'.utf8Size = 1 ∧ '\x7d'.utf8Size = 1 := ⟨rfl, rfl⟩
    simp only [byteLength, byteLength_append]
    omega
  rw [splitFrom, if_neg hne, if_pos rfl]
  simp only [List.head?_cons, if_true, List.drop_one, List.tail_cons, hsource, hblank,
    Bool.false_eq_true, if_false]
  rw [hlength, htext, splitFrom_skip, hplace]

/-- A name behind a dollar sign is split off. -/
theorem splitFrom_name {name : List Char} (hn : Signature.IsName name)
    (hends : Signature.EndsName rest) (offset : Nat) (gathered : List Char) :
    splitFrom 0 offset gathered ('$' :: (name ++ rest)) =
      (do
        return flush gathered
          (.name name (offset + 1) ::
            (← splitFrom 0 (offset + 1 + byteLength name) [] rest))) := by
  have hne : '$' ≠ '\\' := by decide
  have hword := Token.takeWhile_run hn.part hends
  obtain ⟨c, more, rfl, hc, -⟩ := hn.cons
  have hbrace : c ≠ '\x7b' :=
    Token.isNamePart_ne (Token.isNamePart_of_isNameStart hc) (by decide)
  rw [splitFrom, if_neg hne, if_pos rfl]
  simp only [List.cons_append, List.head?_cons, if_neg hbrace, if_pos hc] at hword ⊢
  rw [hword, ← List.cons_append, splitFrom_skip]

/-- The name behind a dollar sign. -/
theorem dollar_name {next : Char} (hhead : rest.head? = some next)
    (hstart : Token.isNameStart next) :
    ∃ name after, rest = name ++ after ∧ Signature.IsName name ∧ Signature.EndsName after ∧
      rest.takeWhile Token.isNamePart = name := by
  obtain ⟨tail, rfl⟩ := List.head?_eq_some_iff.mp hhead
  have hne : Token.nameLength (next :: tail) ≠ 0 := by
    rw [Token.nameLength, if_pos hstart]
    omega
  obtain ⟨name, after, htext, hn, hends, -⟩ := Token.name_cases hne
  exact ⟨name, after, htext, hn, hends, by rw [htext, Token.takeWhile_run hn.part hends]⟩

/-- Any other character is gathered. -/
theorem splitFrom_plain {c : Char} (hc : c ≠ '\\')
    (hdollar : c = '$' → ∀ d ∈ rest.head?, d ≠ '\x7b' ∧ Token.isNameStart d = false)
    (offset : Nat) (gathered : List Char) :
    splitFrom 0 offset gathered (c :: rest) =
      splitFrom 0 (offset + c.utf8Size) (c :: gathered) rest := by
  rw [splitFrom, if_neg hc]
  split
  case isFalse => rfl
  case isTrue hdollar' =>
    have hsize : offset + c.utf8Size = offset + 1 := by rw [hdollar']; rfl
    rw [hsize]
    split
    case h_1 => rfl
    case h_2 next hhead =>
      obtain ⟨hbrace, hstart⟩ := hdollar hdollar' next hhead
      rw [if_neg hbrace, if_neg (by simp [hstart])]

end TagExpr.Literal
