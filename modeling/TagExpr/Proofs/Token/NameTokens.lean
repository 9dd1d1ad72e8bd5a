import TagExpr.Proofs.Parse.Words
import TagExpr.Proofs.Token.Gaps
import TagExpr.Proofs.Token.Signatures

/-!
# Name tokens

A name token is written with marks that select a section frame, a name, and a parenthesis if it is a
call head. What is written so is read as that token wherever the name ends (`longestClass?_name`),
and every name token is written so (`name_of_ident`). A name that is a keyword is read as a keyword
where neither marks nor a parenthesis stand by it.
-/

namespace TagExpr.Token

open Signature (IsName EndsName)

variable {lookup : Lookup} {marks name rest text : List Char} {call : Bool}

/-! ## Marks -/

/-- The marks that select a frame. -/
inductive Marks : Lookup → List Char → Prop
  | none : Marks .unstated []
  | here : Marks (.backreach 0) ['.', '/']
  | slash : Marks .root ['/']
  | backslash : Marks .root ['\\']
  | up (more : Nat) :
      Marks (.backreach (more + 1)) (List.replicate (more + 1) ['.', '.', '/']).flatten

theorem ascents_up (levels : Nat) (h : ascents rest = 0) :
    ascents ((List.replicate levels ['.', '.', '/']).flatten ++ rest) = levels := by
  induction levels with
  | zero => exact h
  | succ levels ih =>
    rw [List.replicate_succ, List.flatten_cons, List.append_assoc, Nat.add_comm]
    exact congrArg (1 + ·) ih

theorem up_ascents (text : List Char) :
    text.take (3 * ascents text) = (List.replicate (ascents text) ['.', '.', '/']).flatten := by
  fun_induction ascents text with
  | case1 rest ih =>
    rw [show 3 * (1 + ascents rest) = 3 * ascents rest + 3 by omega, Nat.add_comm 1,
      List.replicate_succ, List.flatten_cons, ← ih]
    rfl
  | case2 => rfl

/-- What is taken for marks are marks. -/
theorem marks_lookup (text : List Char) :
    Marks (lookupMarks text).1 (text.take (lookupMarks text).2) := by
  fun_cases lookupMarks text with
  | case1 => exact .here
  | case2 => exact .slash
  | case3 => exact .backslash
  | case4 => exact .none
  | case5 _ _ _ _ hne =>
    obtain ⟨more, hmore⟩ := Nat.exists_eq_succ_of_ne_zero hne
    rw [up_ascents, hmore]
    exact .up more

theorem isNamePart_ne {c x : Char} (h : isNamePart c) (hx : isNamePart x = false) : c ≠ x := by
  rintro rfl
  cases h.symm.trans hx

/-- Marks are found again before what begins with none. -/
theorem lookupMarks_marks (hm : Marks lookup marks) (hascents : ascents rest = 0)
    (hnone : lookupMarks rest = (.unstated, 0)) :
    lookupMarks (marks ++ rest) = (lookup, marks.length) := by
  cases hm with
  | none => exact hnone
  | here | slash | backslash => rfl
  | up more =>
    have all := ascents_up (more + 1) hascents
    have length : (List.replicate (more + 1) ['.', '.', '/']).flatten.length = 3 * (more + 1) := by
      simp [Nat.mul_comm]
    rw [length]
    rw [List.replicate_succ, List.flatten_cons] at all ⊢
    unfold lookupMarks
    split
    case h_1 heq | h_2 heq | h_3 heq => simp at heq
    case h_4 => simp only [all]

/-- Marks before a name are found again. -/
theorem lookupMarks_name (hm : Marks lookup marks) {c : Char} (hc : isNamePart c) :
    lookupMarks (marks ++ c :: rest) = (lookup, marks.length) := by
  refine lookupMarks_marks hm ?_ (lookupMarks_of_namePart hc rest)
  unfold ascents
  split
  case h_1 heq => exact absurd (List.cons.inj heq).1 (isNamePart_ne hc (by decide))
  case h_2 => rfl

/-- Marks hold no part of a name. -/
theorem Marks.isMark (hm : Marks lookup marks) : ∀ c ∈ marks, isMark c := by
  cases hm with
  | none => simp
  | here | slash | backslash => simp [Token.isMark]
  | up more =>
    intro c hc
    obtain ⟨part, hpart, hc⟩ := List.mem_flatten.mp hc
    rw [List.eq_of_mem_replicate hpart] at hc
    simp only [List.mem_cons, List.not_mem_nil, or_false] at hc
    rcases hc with rfl | rfl | rfl <;> rfl

/-! ## Lengths -/

/-- The parenthesis that belongs to a call head. -/
def opener (call : Bool) : List Char := if call then ['('] else []

/-- Neither more of the name nor a parenthesis follows, unless a parenthesis belongs to the
token. -/
def NameEnds (call : Bool) (rest : List Char) : Prop :=
  call = false → EndsName rest ∧ rest.head? ≠ some '('

theorem NameEnds.endsName (h : NameEnds call rest) : EndsName (opener call ++ rest) := by
  cases call with
  | true =>
    intro c hc
    cases hc
    rfl
  | false => exact (h rfl).1

theorem callableLength_name (hn : IsName name) (h : NameEnds call rest) :
    callableLength (name ++ (opener call ++ rest)) = (name ++ opener call).length := by
  have hlen := hn.length h.endsName
  rw [callableLength_eq, hlen, if_neg (fun hzero => hn.1 (List.length_eq_zero_iff.mp hzero)),
    List.drop_left, List.length_append]
  congr 1
  cases call with
  | true => rfl
  | false =>
    obtain ⟨-, hparen⟩ := h rfl
    cases rest with
    | nil => rfl
    | cons c rest =>
      have hc : c ≠ '(' := fun heq => hparen (by rw [heq]; rfl)
      simp [opener, suffixLength, hc]

theorem IsName.head (hn : IsName name) (rest : List Char) :
    ∃ c more, name ++ rest = c :: more ∧ isNameStart c := by
  obtain ⟨c, more, rfl, hc, -⟩ := hn.cons
  exact ⟨c, more ++ rest, rfl, hc⟩

theorem identLength_name (hm : Marks lookup marks) (hn : IsName name) (h : NameEnds call rest) :
    identLength (marks ++ (name ++ (opener call ++ rest))) =
      (marks ++ (name ++ opener call)).length := by
  obtain ⟨c, more, hcons, hc⟩ := IsName.head hn (opener call ++ rest)
  have hpart := isNamePart_of_isNameStart hc
  have hcallable := callableLength_name hn h
  have hpos := List.length_pos_iff.mpr hn.1
  rw [List.length_append] at hcallable
  rw [hcons] at hcallable ⊢
  rw [identLength_eq, lookupMarks_name hm hpart]
  simp only [List.drop_left]
  rw [dottedLength_other (isNamePart_ne hpart (by decide)), hcallable, if_neg (by omega)]
  simp only [List.length_append]

/-! ## Other classes -/

/-- Neither a digit nor a point with a digit after it. -/
theorem doubleLength_zero {c : Char} (hc : c.isDigit = false)
    (hdot : c = '.' → digitsLength rest = 0) : doubleLength (c :: rest) = 0 := by
  have whole : digitsLength (c :: rest) = 0 := by simp [digitsLength, hc]
  rw [doubleLength_eq, whole, List.drop_zero, if_pos]
  unfold fractionLength
  split
  case h_1 heq =>
    obtain ⟨hc, rfl⟩ := List.cons.inj heq
    exact if_pos (hdot hc)
  case h_2 => rfl

/-- No number begins so. -/
theorem length_number {c : Char} (hc : c.isDigit = false)
    (hdot : c = '.' → digitsLength rest = 0) :
    ∀ cls ∈ OperandClass.numbers, cls.length (c :: rest) = 0 := by
  have hint : intLength (c :: rest) = 0 := by simp [intLength, digitsLength, hc]
  have hhex : hexLength (c :: rest) = 0 := by
    cases rest with
    | nil => exact hexLength_singleton c
    | cons d rest => exact hexLength_other (fun h => by rw [h.1] at hc; cases hc) rest
  simp [OperandClass.numbers, OperandClass.length, hint, hhex, doubleLength_zero hc hdot]

/-- A keyword is no longer than the name at the head of a text. -/
theorem length_keyword (hn : IsName name) (hrest : EndsName rest) {keyword : String}
    (hk : ∀ c ∈ keyword.toList, isNamePart c) :
    symbolLength [keyword] (name ++ rest) ≤ name.length ∧
      (symbolLength [keyword] (name ++ rest) = name.length → keyword.toList = name) := by
  have hpos := List.length_pos_iff.mpr hn.1
  rcases le_symbolLength_iff.mp (Nat.le_refl (symbolLength [keyword] (name ++ rest))) with
    hzero | ⟨_, hmem, hprefix, hle⟩
  · exact ⟨by omega, fun h => by omega⟩
  · rw [List.mem_singleton.mp hmem] at hprefix hle
    -- The keyword holds nothing but parts of names, so it ends in the name.
    have inside : keyword.toList <+: name := by
      rcases List.prefix_or_prefix_of_prefix hprefix (List.prefix_append name rest)
        with h | ⟨more, h⟩
      · exact h
      · cases more with
        | nil => exact ⟨[], by simpa using h.symm⟩
        | cons c more =>
          rw [← h, List.prefix_append_right_inj] at hprefix
          obtain ⟨after, rfl⟩ := hprefix
          have hc : isNamePart c := hk c (by simp [← h])
          cases hc.symm.trans (hrest c rfl)
    have hlen := inside.length_le
    rw [String.length_toList] at hlen
    exact ⟨by omega, fun h => inside.eq_of_length (by rw [String.length_toList]; omega)⟩

/-- Of the lexemes that begin with a mark, a path may be as long as the marks are. -/
theorem length_of_mark {c : Char} (hc : isMark c) (hdot : c = '.' → digitsLength rest = 0) :
    ∀ cls ∈ OperandClass.numbers ++ OperandClass.quotes ++ OperandClass.marks,
      cls ≠ .path → cls.length (c :: rest) = 0 := by
  have hne {x : Char} (hx : isMark x = false) : c ≠ x := by
    rintro rfl
    cases hc.symm.trans hx
  have hdigit : c.isDigit = false := by
    simp only [isMark, Bool.or_eq_true, decide_eq_true_eq] at hc
    rcases hc with (rfl | rfl) | rfl <;> rfl
  have numbers := length_number hdigit hdot
  have symbols {symbols : List String}
      (hs : symbols.all fun s => s.toList.head?.any (!isMark ·)) :
      symbolLength symbols (c :: rest) = 0 := symbolLength_of_head hs hc rest
  have noOpener (quoted : OperandClass) : ¬ Opens (c :: rest) quoted := by
    intro h
    generalize htext : c :: rest = text at h
    cases h <;> exact hne (by decide) (List.cons.inj htext).1
  have quotes (quoted : OperandClass) (hq : quoted = .doubleQuoted ∨ quoted = .singleQuoted ∨
      quoted = .regex) := length_eq_zero_of_not_opens hq (noOpener quoted)
  have annotated : OperandClass.annotated.length (c :: rest) = 0 := by
    simp only [OperandClass.length]
    split
    case h_1 heq => exact absurd (List.cons.inj heq).1 (hne (by decide))
    case h_2 => rfl
  simp only [List.forall_mem_append]
  refine ⟨⟨fun cls h _ => numbers cls h, ?_⟩, ?_⟩
  · simpa [OperandClass.quotes] using ⟨quotes _ (by simp), quotes _ (by simp), quotes _ (by simp)⟩
  · simp only [OperandClass.marks, List.forall_mem_cons, ne_eq, not_true, false_implies, true_and]
    refine ⟨fun _ => annotated, fun _ => symbols (by decide), fun _ => ?_,
      fun _ => symbols (by decide), by simp⟩
    rw [symbol_eq (noOpener .regex)]
    exact symbols (by decide)

theorem furtherParents_up (more : Nat) (h : ∀ after, rest ≠ '.' :: '.' :: after) :
    furtherParents ('/' :: ((List.replicate more ['.', '.', '/']).flatten ++ rest)) = more := by
  induction more with
  | zero =>
    show furtherParents ('/' :: rest) = 0
    unfold furtherParents
    split
    case h_1 heq => exact absurd (List.cons.inj heq).2 (h _)
    case h_2 => rfl
  | succ more ih =>
    rw [List.replicate_succ, List.flatten_cons, Nat.add_comm]
    exact congrArg (1 + ·) ih

theorem suffixLength_le (letters text : List Char) : suffixLength letters text ≤ 1 := by
  cases text with
  | nil => exact Nat.zero_le 1
  | cons c text =>
    rw [suffixLength]
    split <;> omega

/-- No class but that of names and the keywords reaches past marks. -/
theorem length_beside_marks (hm : Marks lookup marks) (hne : marks ≠ [])
    (h : ∀ after, rest ≠ '.' :: '.' :: after) :
    ∀ cls ∈ OperandClass.numbers ++ OperandClass.quotes ++ OperandClass.marks,
      cls.length (marks ++ rest) ≤ marks.length := by
  -- Where marks stand first, no class but that of paths has a lexeme.
  have marked {c : Char} {after : List Char} (hc : isMark c)
      (hdigits : c = '.' → digitsLength after = 0)
      (hpath : pathLength (c :: after) ≤ marks.length) :
      ∀ cls ∈ OperandClass.numbers ++ OperandClass.quotes ++ OperandClass.marks,
        cls.length (c :: after) ≤ marks.length := by
    intro cls hcls
    by_cases hp : cls = .path
    · subst hp
      exact hpath
    · rw [length_of_mark hc hdigits cls hcls hp]
      exact Nat.zero_le _
  cases hm with
  | none => exact absurd rfl hne
  | here => exact marked rfl (fun _ => rfl) (Nat.le_succ 1)
  | slash | backslash => exact marked rfl (fun h => absurd h (by decide)) (Nat.zero_le 1)
  | up levels =>
    refine marked rfl (fun _ => rfl) ?_
    have further : furtherParents ('/' :: ((List.replicate levels ['.', '.', '/']).flatten ++
        rest)) = levels := furtherParents_up levels h
    have hlength : (List.replicate levels ['.', '.', '/']).flatten.length = 3 * levels := by
      simp [Nat.mul_comm]
    rw [List.replicate_succ, List.flatten_cons, List.length_append, hlength]
    refine Nat.le_trans (Nat.add_le_add_left (suffixLength_le _ _) _) ?_
    show 2 + 3 * furtherParents ('/' :: ((List.replicate levels _).flatten ++ rest)) + 1 ≤ _
    rw [further]
    simp only [List.length_cons, List.length_nil]
    omega

/-- Only the keywords can compete with a name and its marks. -/
theorem length_beside_name (hm : Marks lookup marks) (hn : IsName name) (rest : List Char) :
    ∀ cls ∈ OperandClass.numbers ++ OperandClass.quotes ++ OperandClass.marks,
      cls.length (marks ++ (name ++ rest)) ≤ marks.length := by
  obtain ⟨d, more, hcons, hd⟩ := IsName.head hn rest
  have hpart := isNamePart_of_isNameStart hd
  have hdot := isNamePart_ne hpart (x := '.') (by decide)
  rw [hcons]
  by_cases hne : marks = []
  · subst hne
    have numbers : ∀ cls ∈ OperandClass.numbers, cls.length (d :: more) = 0 :=
      length_number (isDigit_of_isNameStart hd) fun heq => absurd heq hdot
    have others := length_of_namePart hpart more
    simp only [List.forall_mem_append, List.nil_append, List.length_nil] at others ⊢
    exact ⟨⟨fun cls h => Nat.le_of_eq (numbers cls h), fun cls h => Nat.le_of_eq (others.1 cls h)⟩,
      fun cls h => Nat.le_of_eq (others.2 cls h)⟩
  · exact length_beside_marks hm hne fun after heq => hdot (List.cons.inj heq).1

/-! ## Words in operand position -/

/-- If a class has a lexeme, one is found. -/
theorem exists_longestClass? {cls : OperandClass} (hpos : 0 < cls.length text) :
    ∃ found n, longestClass? text = some (found, n) := by
  cases h : longestClass? text with
  | some found => exact ⟨found.1, found.2, rfl⟩
  | none =>
    have hle :=
      @le_foundLength text _ none _ (.inr ⟨cls, mem_all cls, Nat.le_refl (cls.length text)⟩)
    rw [← longestClass?_fold, h] at hle
    exact absurd hpos (Nat.not_lt.mpr hle)

/-- The classes of keywords have the keywords for lexemes. -/
theorem length_keywords : ∀ cls ∈ OperandClass.keywords, ∃ keyword ∈ Signature.keywords,
    ∀ text, cls.length text = symbolLength [keyword] text := by
  simp only [OperandClass.keywords, List.forall_mem_cons]
  exact ⟨⟨"null", by decide, fun _ => rfl⟩, ⟨"true", by decide, fun _ => rfl⟩,
    ⟨"false", by decide, fun _ => rfl⟩, by simp⟩

theorem keyword_parts : ∀ keyword ∈ Signature.keywords, ∀ c ∈ keyword.toList, isNamePart c := by
  have checked : Signature.keywords.all fun keyword => keyword.toList.all isNamePart := by decide
  exact fun keyword hk c hc => List.all_eq_true.mp (List.all_eq_true.mp checked keyword hk) c hc

/-- No keyword begins with a mark. -/
theorem keyword_head : ∀ keyword ∈ Signature.keywords,
    [keyword].all fun s => s.toList.head?.any (!isMark ·) := by
  decide

/-- A keyword is as long as a name token where it is all that the token is written with. -/
theorem keyword_of_length (hm : Marks lookup marks) (hn : IsName name) (h : NameEnds call rest)
    {keyword : String} (hk : keyword ∈ Signature.keywords)
    (hlen : (marks ++ (name ++ opener call)).length ≤
      symbolLength [keyword] (marks ++ (name ++ (opener call ++ rest)))) :
    marks = [] ∧ call = false ∧ keyword.toList = name ∧
      symbolLength [keyword] (marks ++ (name ++ (opener call ++ rest))) = name.length := by
  have hpos := List.length_pos_iff.mpr hn.1
  cases marks with
  | nil =>
    obtain ⟨hle, heq⟩ := length_keyword hn h.endsName (keyword_parts keyword hk)
    simp only [List.nil_append, List.length_append] at hlen ⊢
    cases call with
    | true =>
      simp only [opener, if_true, List.length_cons, List.length_nil] at hlen hle
      omega
    | false => exact ⟨trivial, rfl, heq (by omega), by omega⟩
  | cons c marks =>
    have zero : symbolLength [keyword] (c :: marks ++ (name ++ (opener call ++ rest))) = 0 :=
      symbolLength_of_head (keyword_head keyword hk) (hm.isMark c List.mem_cons_self) _
    rw [zero] at hlen
    simp only [List.length_append] at hlen
    omega

/-- A name with its marks and its parenthesis is read as a name or a keyword. -/
theorem longestClass?_word (hm : Marks lookup marks) (hn : IsName name) (h : NameEnds call rest) :
    ∃ cls ∈ OperandClass.ident :: OperandClass.keywords,
      longestClass? (marks ++ (name ++ (opener call ++ rest))) =
        some (cls, (marks ++ (name ++ opener call)).length) := by
  have hpos := List.length_pos_iff.mpr hn.1
  have hident : OperandClass.ident.length (marks ++ (name ++ (opener call ++ rest))) =
    (marks ++ (name ++ opener call)).length := identLength_name hm hn h
  have hsome : 0 < OperandClass.ident.length (marks ++ (name ++ (opener call ++ rest))) := by
    rw [hident]
    simp only [List.length_append]
    omega
  obtain ⟨cls, n, hfound⟩ := exists_longestClass? hsome
  have hmax := longestClass?_max hfound .ident
  have hn' := longestClass?_length hfound
  rw [hident] at hmax
  have hmem := mem_all cls
  rw [OperandClass.all_eq, List.mem_append, List.append_assoc, List.mem_append, List.mem_cons]
    at hmem
  have beside (hc : cls ∈ OperandClass.numbers ++ OperandClass.quotes ++ OperandClass.marks) :
      False := by
    have hle := length_beside_name hm hn (opener call ++ rest) cls hc
    simp only [List.length_append] at hmax
    omega
  rcases hmem with (hkey | hmem) | rfl | hmem
  · obtain ⟨keyword, hmem, hlen⟩ := length_keywords cls hkey
    rw [hn', hlen] at hmax
    obtain ⟨rfl, rfl, -, heq⟩ := keyword_of_length hm hn h hmem hmax
    refine ⟨cls, List.mem_cons_of_mem _ hkey, ?_⟩
    rw [hfound, hn', hlen, heq]
    simp [opener]
  · exact (beside (List.mem_append_left _ hmem)).elim
  · exact ⟨.ident, List.mem_cons_self, by rw [hfound, hn', hident]⟩
  · exact (beside (List.mem_append_right _ hmem)).elim

/-- **A name is read as that name** wherever it ends, if it is no keyword. -/
theorem longestClass?_name (hm : Marks lookup marks) (hn : IsName name) (h : NameEnds call rest)
    (hplain : marks = [] → call = false → String.ofList name ∉ Signature.keywords) :
    longestClass? (marks ++ (name ++ (opener call ++ rest))) =
      some (.ident, (marks ++ (name ++ opener call)).length) := by
  obtain ⟨cls, hcls, hfound⟩ := longestClass?_word hm hn h
  rcases List.mem_cons.mp hcls with rfl | hkey
  · exact hfound
  · obtain ⟨keyword, hmem, hlen⟩ := length_keywords cls hkey
    have hn' := longestClass?_length hfound
    rw [hlen] at hn'
    obtain ⟨rfl, rfl, rfl, -⟩ := keyword_of_length hm hn h hmem (Nat.le_of_eq hn')
    exact absurd (by rwa [String.ofList_toList]) (hplain rfl rfl)

/-! ## From lexemes to tokens and back -/

theorem splitCall_name (hn : IsName name) (call : Bool) :
    splitCall (name ++ opener call) = (String.ofList name, call) := by
  cases call with
  | true => simp [splitCall, opener]
  | false =>
    have hlast : name.getLast? ≠ some '(' := fun heq => by
      cases hn.part _ (List.mem_of_getLast? heq)
    simp [splitCall, opener, hlast]

theorem identOf_name (hm : Marks lookup marks) (hn : IsName name) (call : Bool) :
    identOf (marks ++ (name ++ opener call)) = ⟨.name (String.ofList name), lookup, call⟩ := by
  obtain ⟨c, more, hcons, hc⟩ := IsName.head hn (opener call)
  have hpart := isNamePart_of_isNameStart hc
  have hmarks : lookupMarks (marks ++ c :: more) = (lookup, marks.length) :=
    lookupMarks_name hm hpart
  have hsplit := splitCall_name hn call
  rw [hcons] at hsplit ⊢
  simp only [identOf, hmarks, List.drop_left]
  split
  case h_1 heq => exact absurd (List.cons.inj heq).1 (isNamePart_ne hpart (by decide))
  case h_2 => rw [hsplit]

theorem endsName_takeWhile (text : List Char) :
    EndsName (text.drop (text.takeWhile isNamePart).length) := by
  induction text with
  | nil => simp [EndsName]
  | cons c text ih =>
    by_cases hc : isNamePart c
    · rw [List.takeWhile_cons_of_pos hc, List.length_cons, List.drop_succ_cons]
      exact ih
    · rw [List.takeWhile_cons_of_neg hc]
      intro d hd
      cases hd
      exact Bool.eq_false_iff.mpr hc

/-- A name at the head of a text, all of it. -/
theorem name_cases (hne : nameLength text ≠ 0) :
    ∃ name rest, text = name ++ rest ∧ IsName name ∧ EndsName rest ∧
      nameLength text = name.length := by
  have hlen : (text.take (nameLength text)).length = nameLength text :=
    List.length_take_of_le (cuts_name.le_length text)
  refine ⟨text.take (nameLength text), text.drop (nameLength text),
    (List.take_append_drop _ text).symm, ⟨fun hnil => hne (by rw [← hlen, hnil]; rfl), ?_⟩, ?_,
    hlen.symm⟩
  · rw [cuts_name.take, hlen]
  · cases text with
    | nil => exact absurd rfl hne
    | cons c text =>
      simp only [nameLength] at hne ⊢
      split
      case isFalse hc => exact absurd (if_neg hc) hne
      case isTrue =>
        rw [Nat.add_comm, List.drop_succ_cons]
        exact endsName_takeWhile text

/-- A callable lexeme is a name, with the parenthesis if one stands right after it. -/
theorem callable_cases (hpos : 0 < callableLength text) :
    ∃ name call rest, text = name ++ (opener call ++ rest) ∧ IsName name ∧ NameEnds call rest ∧
      callableLength text = (name ++ opener call).length := by
  have hne : nameLength text ≠ 0 := fun hzero => by simp [callableLength, hzero] at hpos
  obtain ⟨name, rest, rfl, hname, hends, -⟩ := name_cases hne
  by_cases hparen : rest.head? = some '('
  · obtain ⟨rest, rfl⟩ : ∃ more, rest = '(' :: more := by
      cases rest with
      | nil => cases hparen
      | cons c rest => exact ⟨rest, by rw [Option.some.inj hparen]⟩
    have hcall : NameEnds true rest := by simp [NameEnds]
    exact ⟨name, true, rest, rfl, hname, hcall, callableLength_name hname hcall⟩
  · have hbare : NameEnds false rest := fun _ => ⟨hends, hparen⟩
    exact ⟨name, false, rest, rfl, hname, hbare, callableLength_name hname hbare⟩

/-- The lexeme of an identifier is a name with its marks and its parenthesis, or it is that of an
internal name. -/
theorem ident_cases (hpos : 0 < identLength text) :
    (∃ lookup marks name call rest, Marks lookup marks ∧ IsName name ∧ NameEnds call rest ∧
      text = marks ++ (name ++ (opener call ++ rest)) ∧
      identLength text = (marks ++ (name ++ opener call)).length) ∨
    ∃ name, (identOf (text.take (identLength text))).kind = .internal name := by
  have hmarks := marks_lookup text
  have hcut (n : Nat) (hn : (lookupMarks text).2 ≤ n) :
      (lookupMarks (text.take n)).2 = (lookupMarks text).2 := cuts_marks.take_of_le hn
  have hlen : (text.take (lookupMarks text).2).length = (lookupMarks text).2 :=
    List.length_take_of_le (cuts_marks.le_length text)
  have htext := List.take_append_drop (lookupMarks text).2 text
  have hident := identLength_eq text
  generalize (lookupMarks text).2 = k at *
  have hdotted : dottedLength (text.drop k) ≠ 0 := fun hzero => by
    rw [hident, if_pos hzero] at hpos
    exact absurd hpos (Nat.lt_irrefl 0)
  rw [if_neg hdotted] at hident
  unfold dottedLength at hdotted hident
  split at hdotted
  case h_1 rest hdrop =>
    right
    have hcallable : callableLength rest ≠ 0 := fun hzero => hdotted (if_pos hzero)
    simp only [hdrop, if_neg hcallable] at hident
    have hlexeme : (text.take (identLength text)).drop k =
        '.' :: rest.take (callableLength rest) := by
      rw [hident, List.drop_take, hdrop, Nat.add_sub_cancel_left, Nat.add_comm, List.take_succ_cons]
    have hafter := hcut (identLength text) (by omega)
    refine ⟨(splitCall (rest.take (callableLength rest))).1, ?_⟩
    unfold identOf
    simp only [hafter, hlexeme]
  case h_2 hdot =>
    left
    obtain ⟨name, call, rest, hdrop, hname, hends, hcallable⟩ :=
      callable_cases (Nat.pos_of_ne_zero hdotted)
    refine ⟨_, _, name, call, rest, hmarks, hname, hends, by rw [← hdrop, htext], ?_⟩
    rw [List.length_append, hlen, hident, ← hcallable]
    split
    case h_1 heq => exact absurd heq (hdot _)
    case h_2 => rfl

/-! ## Reading -/

/-- A word that is not called is read as a name or a keyword, and completes an operand. -/
theorem read_word {at_ : Cursor} (hn : IsName name) (h : NameEnds false rest)
    (hat : at_.rest = name ++ rest) :
    ∃ kind span after, read .operand at_ = .ok (⟨kind, span⟩, after) ∧ kind ≠ .finish ∧
      kind.modeAfter = .operator ∧ after.rest = rest := by
  obtain ⟨cls, hcls, hfound⟩ := longestClass?_word .none hn h
  have hlexeme :
      ∃ kind, cls.token name = .ok kind ∧ kind ≠ .finish ∧ kind.modeAfter = .operator := by
    have hident := identOf_name .none hn false
    simp only [opener, Bool.false_eq_true, if_false, List.append_nil, List.nil_append] at hident
    simp only [OperandClass.keywords, List.mem_cons, List.not_mem_nil, or_false] at hcls
    rcases hcls with rfl | rfl | rfl | rfl
    · exact ⟨_, rfl, by simp, by rw [hident]; rfl⟩
    all_goals exact ⟨_, rfl, by simp, rfl⟩
  obtain ⟨kind, hkind, hfinish, hmode⟩ := hlexeme
  simp only [opener, Bool.false_eq_true, if_false, List.append_nil, List.nil_append] at hfound
  obtain ⟨span, after, hread, hrest⟩ := read_of_class hat hn.1 hfound hkind
  exact ⟨kind, span, after, hread, hfinish, hmode, hrest⟩

/-- A name is read as that name. -/
theorem read_name {at_ : Cursor} (hm : Marks lookup marks) (hn : IsName name)
    (h : NameEnds call rest)
    (hplain : marks = [] → call = false → String.ofList name ∉ Signature.keywords)
    (hat : at_.rest = marks ++ (name ++ (opener call ++ rest))) :
    ∃ span after, read .operand at_ =
        .ok (⟨.ident ⟨.name (String.ofList name), lookup, call⟩, span⟩, after) ∧
      after.rest = rest := by
  have hfound := longestClass?_name hm hn h hplain
  have hsplit :
      marks ++ (name ++ (opener call ++ rest)) = (marks ++ (name ++ opener call)) ++ rest := by
    simp
  rw [hsplit] at hfound hat
  refine read_of_class hat (by simp [hn.1]) hfound ?_
  rw [OperandClass.token, identOf_name hm hn]

theorem read_member {at_ : Cursor} (hn : IsName name) (h : NameEnds call rest)
    (hat : at_.rest = name ++ (opener call ++ rest)) :
    ∃ span after, read .member at_ =
        .ok (⟨.ident { kind := .name (String.ofList name), call }, span⟩, after) ∧
      after.rest = rest := by
  have hlen := callableLength_name hn h
  have hpos := List.length_pos_iff.mpr hn.1
  rw [← List.append_assoc] at hlen hat
  refine ⟨spanOf at_ (name ++ opener call).length, at_.advance (name ++ opener call).length, ?_,
    by simp [Cursor.advance, hat]⟩
  have hcons : at_.rest ≠ [] := by simp [hat, hn.1]
  rw [read]
  split
  case h_1 heq => exact absurd heq hcons
  case h_2 =>
    simp only [hat, hlen]
    split
    case h_1 hzero =>
      rw [List.length_append] at hzero
      omega
    case h_2 =>
      simp only [List.take_left, splitCall_name hn]
      rfl

end TagExpr.Token
