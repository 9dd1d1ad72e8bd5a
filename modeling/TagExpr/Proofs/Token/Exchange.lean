import Mathlib.Data.List.Chain
import TagExpr.Proofs.Token.Letters
import TagExpr.Proofs.Token.NameTokens

/-!
# Names in exchange for names

What stands before a name is read as before when the text goes on with another name there
(`exchange_keeps`). In the lexeme of a number or a symbol no name begins but inside a word
(`Seamless`), so no such lexeme reaches into the name; and marks reach into the one name just as
they reach into the other.
-/

namespace TagExpr.Token

variable {text rest p x t : List Char} {c d : Char} {count more : Nat}

/-- A name begins the text. -/
def BeginsName (text : List Char) : Prop := ∃ c rest, text = c :: rest ∧ isNameStart c

/-- The text does not end inside a word. -/
def EndsWord (text : List Char) : Prop := ∀ c ∈ text.getLast?, isNamePart c = false

theorem EndsWord.suffix (h : EndsWord p) {q : List Char} (hq : q <:+ p) (hne : q ≠ []) :
    EndsWord q := by
  obtain ⟨before, rfl⟩ := hq
  intro c hc
  refine h c ?_
  rw [List.getLast?_append_of_ne_nil _ hne]
  exact hc

theorem beginsName_name {name : List Char} (hn : Signature.IsName name) (rest : List Char) :
    BeginsName (name ++ rest) := IsName.head hn rest

/-! ## Lexemes in which no name begins -/

/-- Behind the first character the second one may be part of a lexeme. -/
def Joins (c d : Char) : Prop := isNameStart d → isNamePart c

/-- In the first `count` characters a name begins inside a word only. -/
def Seamless (text : List Char) (count : Nat) : Prop := (text.take count).IsChain Joins

theorem seamless_parts (h : MadeOf isNamePart text count) : Seamless text count := by
  unfold MadeOf at h
  unfold Seamless
  generalize text.take count = lexeme at h
  induction lexeme with
  | nil => exact .nil
  | cons c lexeme ih =>
    cases lexeme with
    | nil => exact .singleton c
    | cons d lexeme =>
      exact .cons_cons (fun _ => h c List.mem_cons_self)
        (ih fun e he => h e (List.mem_cons_of_mem c he))

theorem seamless_signs (h : MadeOf (!isNameStart ·) text count) : Seamless text count := by
  unfold MadeOf at h
  unfold Seamless
  generalize text.take count = lexeme at h
  induction lexeme with
  | nil => exact .nil
  | cons c lexeme ih =>
    cases lexeme with
    | nil => exact .singleton c
    | cons d lexeme =>
      refine .cons_cons (fun hd => ?_) (ih fun e he => h e (List.mem_cons_of_mem c he))
      simp [hd] at h

/-- A word, and what follows it. -/
theorem Seamless.after (hparts : MadeOf isNamePart text count)
    (h : Seamless (text.drop count) more) : Seamless text (count + more) := by
  unfold Seamless
  rw [List.take_add, List.isChain_append]
  exact ⟨seamless_parts hparts, h, fun c hc _ _ _ => hparts c (List.mem_of_mem_getLast? hc)⟩

/-- A sign, and what follows it. -/
theorem Seamless.cons (hhead : ∀ d ∈ rest.head?, isNameStart d = false) (h : Seamless rest count) :
    Seamless (c :: rest) (1 + count) := by
  unfold Seamless
  rw [Nat.add_comm, List.take_succ_cons]
  refine List.IsChain.cons h fun d hd hstart => ?_
  have hmem : d ∈ rest.head? := by
    cases rest with
    | nil => simp at hd
    | cons e rest => cases count <;> simp_all
  cases hstart.symm.trans (hhead d hmem)

theorem Seamless.needs (other : Nat) (h : Seamless text count) :
    Seamless text (if other = 0 then 0 else count) := by
  split
  · exact .nil
  · exact h

/-- No lexeme of that kind reaches into a name. -/
theorem Seamless.le (h : Seamless (p ++ x) count) (hne : p ≠ []) (hp : EndsWord p)
    (hx : BeginsName x) : count ≤ p.length := by
  obtain ⟨d, rest, rfl, hd⟩ := hx
  obtain ⟨before, c, rfl⟩ := List.eq_nil_or_concat p |>.resolve_left hne
  rw [List.concat_eq_append] at *
  apply Nat.le_of_not_lt
  intro hlt
  obtain ⟨more, rfl⟩ := Nat.exists_eq_add_of_lt hlt
  have joined : (before ++ [c] ++ d :: rest).take ((before ++ [c]).length + more + 1) =
      before ++ c :: d :: rest.take more := by
    rw [Nat.add_assoc, List.take_length_add_append, List.take_succ_cons]
    simp
  rw [Seamless, joined, List.isChain_append] at h
  have hpart : isNamePart c := (List.isChain_cons_cons.mp h.2.1).1 hd
  cases hpart.symm.trans (hp c (by simp))

/-! ## The lexemes of the classes -/

/-- Digits that are not missing begin with a digit. -/
theorem head_digits (h : digitsLength text ≠ 0) : ∀ d ∈ text.head?, isNameStart d = false := by
  intro d hd
  obtain ⟨rest, rfl⟩ := List.head?_eq_some_iff.mp hd
  refine isNameStart_of_isDigit ?_
  by_contra hdigit
  simp [digitsLength, hdigit] at h

/-- The digits of an exponent, with a sign or without one, and a suffix. -/
theorem seamless_signed (hdigits : digitsLength (rest.drop (suffixLength ['+', '-'] rest)) ≠ 0)
    (h : MadeOf isNamePart (rest.drop (suffixLength ['+', '-'] rest)) count) :
    Seamless rest (suffixLength ['+', '-'] rest + count) := by
  cases rest with
  | nil => exact absurd (by simp [digitsLength]) hdigits
  | cons s rest =>
    rw [suffixLength] at hdigits h ⊢
    split at hdigits
    case isTrue hs =>
      rw [if_pos hs] at h ⊢
      exact Seamless.cons (head_digits hdigits) (seamless_parts h)
    case isFalse hs =>
      rw [if_neg hs] at h ⊢
      rw [Nat.zero_add]
      exact seamless_parts h

theorem seamless_doubleTail (text : List Char) : Seamless text (doubleTailLength text) := by
  have suffix (text : List Char) :
      MadeOf isNamePart text (suffixLength ['d', 'D', 'f', 'F'] text) :=
    madeOf_suffix (by decide) text
  have bare (text : List Char) : Seamless text (0 + suffixLength ['d', 'D', 'f', 'F'] text) := by
    rw [Nat.zero_add]
    exact seamless_parts (suffix text)
  unfold doubleTailLength
  simp only
  cases text with
  | nil => exact bare []
  | cons c rest =>
    rw [exponentLength]
    split
    case isFalse => exact bare _
    case isTrue hc =>
      simp only
      split
      case isTrue => exact bare _
      case isFalse hdigits =>
        have hpart : isNamePart c := by rcases hc with rfl | rfl <;> decide
        generalize hsign : suffixLength ['+', '-'] rest = sign at hdigits
        have hparts := (parts_digits (rest.drop sign)).add (suffix _)
        subst hsign
        have signed := seamless_signed hdigits hparts
        have hdrop : (c :: rest).drop (1 + suffixLength ['+', '-'] rest +
            digitsLength (rest.drop (suffixLength ['+', '-'] rest))) =
            (rest.drop (suffixLength ['+', '-'] rest)).drop
              (digitsLength (rest.drop (suffixLength ['+', '-'] rest))) := by
          rw [Nat.add_assoc, Nat.add_comm 1, List.drop_succ_cons, List.drop_drop]
        rw [hdrop, Nat.add_assoc, Nat.add_assoc]
        have hword : MadeOf isNamePart (c :: rest) 1 := (madeOf_zero rest).cons hpart
        exact Seamless.after hword signed

theorem seamless_fraction (whole : Nat) (text : List Char) :
    Seamless text (fractionLength whole text) := by
  unfold fractionLength
  split
  case h_1 rest =>
    split
    case isTrue => exact .nil
    case isFalse hdigits =>
      exact Seamless.cons (head_digits hdigits)
        (Seamless.after (parts_digits rest) (seamless_doubleTail _))
  case h_2 => exact (seamless_doubleTail text).needs _

theorem seamless_double (text : List Char) : Seamless text (doubleLength text) := by
  rw [doubleLength_eq]
  exact (Seamless.after (parts_digits text) (seamless_fraction _ _)).needs _

theorem seamless_path (text : List Char) : Seamless text (pathLength text) :=
  seamless_signs ((marks_path text).mono fun c hc => by
    simp only [isMark, Bool.or_eq_true, decide_eq_true_eq] at hc
    rcases hc with (rfl | rfl) | rfl <;> decide)

/-- The only sign in a callable lexeme ends it. -/
theorem seamless_callable (text : List Char) : Seamless text (callableLength text) := by
  rw [callableLength_eq]
  have hparen (text : List Char) : MadeOf (!isNameStart ·) text (suffixLength ['('] text) :=
    madeOf_suffix (by decide) text
  exact (Seamless.after (parts_name text) (seamless_signs (hparen _))).needs _

/-- No name begins in a symbol, or it is a word. -/
theorem seamless_symbols {symbols : List String}
    (hs : symbols.all fun s => s.toList.all (!isNameStart ·) || s.toList.all isNamePart)
    (text : List Char) : Seamless text (symbolLength symbols text) := by
  rcases Nat.eq_zero_or_pos (symbolLength symbols text) with hzero | hpos
  · rw [hzero]
    exact .nil
  · have hall := List.all_eq_true.mp hs _ (mem_of_symbolLength hpos)
    rw [String.toList_ofList, Bool.or_eq_true, List.all_eq_true, List.all_eq_true] at hall
    rcases hall with hsigns | hparts
    · exact seamless_signs fun c hc => by simpa using hsigns c hc
    · exact seamless_parts hparts

/-- No name begins in the lexemes of all plain classes but those of names. -/
theorem seamless_of_isPlain {cls : OperandClass} (h : cls.isPlain) (hident : cls ≠ .ident)
    (hannotated : cls ≠ .annotated) (text : List Char) : Seamless text (cls.length text) := by
  cases cls with
  | doubleQuoted | singleQuoted | regex | symbol => cases h
  | null | emptyMap | comma => exact seamless_symbols (by decide) text
  | bool value => cases value <;> exact seamless_symbols (by decide) text
  | int => exact seamless_parts (parts_int text)
  | hexInt => exact seamless_parts (parts_hex text)
  | double => exact seamless_double text
  | path => exact seamless_path text
  | ident => exact absurd rfl hident
  | annotated => exact absurd rfl hannotated

/-! ## Names behind marks -/

theorem callableLength_pos (h : BeginsName text) : 0 < callableLength text := by
  obtain ⟨c, rest, rfl, hc⟩ := h
  have hpos : 0 < nameLength (c :: rest) := by
    rw [nameLength, if_pos hc]
    omega
  rw [callableLength_eq, if_neg (by omega)]
  omega

theorem callableLength_le (hne : p ≠ []) (hp : EndsWord p) (hx : BeginsName x) :
    callableLength (p ++ x) ≤ p.length := (seamless_callable _).le hne hp hx

/-- Either the name belongs to the lexeme, whatever name it is, or the lexeme ends before it. -/
theorem dottedLength_cases (hp : EndsWord p) :
    (∀ x, BeginsName x → p.length < dottedLength (p ++ x)) ∨
      ∀ x, BeginsName x → dottedLength (p ++ x) ≤ p.length := by
  have bare (hdot : ∀ rest x, BeginsName x → p ++ x ≠ '.' :: rest) (x : List Char)
      (hx : BeginsName x) : dottedLength (p ++ x) = callableLength (p ++ x) := by
    unfold dottedLength
    split
    case h_1 heq => exact absurd heq (hdot _ x hx)
    case h_2 => rfl
  match p with
  | [] =>
    refine .inl fun x hx => ?_
    rw [bare (fun rest x hx heq => ?_) x hx]
    · exact callableLength_pos hx
    · obtain ⟨c, more, rfl, hc⟩ := hx
      obtain ⟨rfl, -⟩ := List.cons.inj heq
      cases hc
  | c :: p =>
    by_cases hc : c = '.'
    · subst hc
      by_cases hne : p = []
      · subst hne
        refine .inl fun x hx => ?_
        have hpos := callableLength_pos hx
        simp only [List.singleton_append, dottedLength, if_neg (Nat.ne_of_gt hpos),
          List.length_singleton]
        omega
      · refine .inr fun x hx => ?_
        have hle := callableLength_le hne (hp.suffix (List.suffix_cons _ p) hne) hx
        simp only [List.cons_append, dottedLength, List.length_cons]
        split <;> omega
    · refine .inr fun x hx => ?_
      rw [bare (fun rest x hx heq => hc (List.cons.inj heq).1) x hx]
      exact callableLength_le (List.cons_ne_nil c p) hp hx

/-- Marks do not reach into a name. -/
theorem lookupMarks_le (hx : BeginsName x) : (lookupMarks (p ++ x)).2 ≤ p.length := by
  obtain ⟨c, rest, rfl, hc⟩ := hx
  apply Nat.le_of_not_lt
  intro hlt
  obtain ⟨more, hmore⟩ := Nat.exists_eq_add_of_lt hlt
  have hmem : c ∈ (p ++ c :: rest).take (lookupMarks (p ++ c :: rest)).2 := by
    rw [hmore, Nat.add_assoc, List.take_length_add_append, List.take_succ_cons]
    simp
  have hmark := isMark_of_mem_marks hmem
  simp only [isMark, Bool.or_eq_true, decide_eq_true_eq] at hmark
  rcases hmark with (rfl | rfl) | rfl <;> cases hc

theorem stops_space : Stops [' '] := ⟨' ', [], rfl, rfl⟩

/-- What ends before both names is as long before the one as before the other. -/
theorem Cuts.exchange {f : List Char → Nat} (hf : Cuts f) (hx : f (p ++ x) ≤ p.length)
    (ht : f (p ++ t) ≤ p.length) : f (p ++ t) = f (p ++ x) :=
  ((hf p t [' '] stops_space).eq ht).symm.trans ((hf p x [' '] stops_space).eq hx)

theorem identLength_le (hp : EndsWord p) (hx : BeginsName x) (ht : BeginsName t)
    (hle : identLength (p ++ x) ≤ p.length) : identLength (p ++ t) ≤ p.length := by
  have hmarks := lookupMarks_le (p := p) hx
  have same : (lookupMarks (p ++ t)).2 = (lookupMarks (p ++ x)).2 :=
    cuts_marks.exchange hmarks (lookupMarks_le ht)
  rw [identLength_eq] at hle ⊢
  rw [same]
  generalize (lookupMarks (p ++ x)).2 = k at hmarks hle
  have hlen : (p.drop k).length = p.length - k := List.length_drop
  rw [List.drop_append_of_le_length hmarks] at hle ⊢
  have hends : EndsWord (p.drop k) := by
    by_cases hne : p.drop k = []
    · simp [EndsWord, hne]
    · exact hp.suffix (List.drop_suffix k p) hne
  rcases dottedLength_cases hends with hreach | hends
  · have := hreach x hx
    rw [if_neg (by omega)] at hle
    omega
  · have := hends t ht
    split <;> omega

theorem annotatedLength_le (hne : p ≠ []) (hp : EndsWord p) (hx : BeginsName x) (ht : BeginsName t)
    (hle : OperandClass.annotated.length (p ++ x) ≤ p.length) :
    OperandClass.annotated.length (p ++ t) ≤ p.length := by
  obtain ⟨c, p, rfl⟩ := List.exists_cons_of_ne_nil hne
  simp only [List.cons_append, OperandClass.length, List.length_cons] at hle ⊢
  split
  case h_2 => exact Nat.zero_le _
  case h_1 rest heq =>
    obtain ⟨rfl, rfl⟩ := List.cons.inj heq
    by_cases hnil : p = []
    · subst hnil
      have := callableLength_pos hx
      simp only [List.nil_append, if_neg (Nat.ne_of_gt this), List.length_nil] at hle
      omega
    · have := callableLength_le hnil (hp.suffix (List.suffix_cons _ p) hnil) ht
      split <;> omega

/-! ## Exchange -/

theorem IsLength.exchange {f : List Char → Nat} (hf : IsLength f) (hne : p ≠ []) (hp : EndsWord p)
    (hx : BeginsName x) (ht : BeginsName t) (hle : f (p ++ x) ≤ p.length) :
    f (p ++ t) ≤ p.length := by
  cases hf with
  | symbols | operators => exact (seamless_symbols (by decide) _).le hne hp ht
  | callable => exact callableLength_le hne hp ht
  | @plain cls hplain =>
    by_cases hident : cls = .ident
    · subst hident
      exact identLength_le hp hx ht hle
    · by_cases hannotated : cls = .annotated
      · subst hannotated
        exact annotatedLength_le hne hp hx ht hle
      · exact (seamless_of_isPlain hplain hident hannotated _).le hne hp ht

/-- **Before a name, another name may stand instead.** -/
theorem exchange_keeps (hne : p ≠ []) (hp : EndsWord p) (hx : BeginsName x) (ht : BeginsName t) :
    Keeps p x t := by
  refine ⟨fun f hf hle => hf.cuts.exchange hle (hf.exchange hne hp hx ht hle), fun c hc => ?_⟩
  obtain ⟨d, rest, rfl, hd⟩ := ht
  cases hc
  exact ⟨isNamePart_ne (isNamePart_of_isNameStart hd) (by decide),
    isNamePart_ne (isNamePart_of_isNameStart hd) (by decide)⟩

end TagExpr.Token
