import TagExpr.Proofs.Token.Cuts
import TagExpr.Proofs.Token.Progress

/-!
# Signatures as lexemes

What the look-ahead for signatures and clauses accepts: certain lexemes with separators before each
of them (`Laid`). So separators may be put in between the lexemes or taken away, and nothing else
may stand there.
-/

namespace TagExpr.Signature

/-! ## Lexemes with separators between them -/

/-- The text consists of the lexemes, each with any separators before it. -/
inductive Laid : List (List Char) → List Char → Prop
  | nil : Laid [] []
  | separator {c : Char} {lexeme text : List Char} {lexemes : List (List Char)} :
      Text.isSeparator c → Laid (lexeme :: lexemes) text → Laid (lexeme :: lexemes) (c :: text)
  | lexeme {lexeme text : List Char} {lexemes : List (List Char)} :
      Laid lexemes text → Laid (lexeme :: lexemes) (lexeme ++ text)

variable {lexemes more : List (List Char)} {text text' first p x : List Char} {c : Char}

theorem Laid.append (h : Laid lexemes text) (h' : Laid more text') :
    Laid (lexemes ++ more) (text ++ text') := by
  induction h with
  | nil => exact h'
  | separator hc _ ih => exact .separator hc ih
  | lexeme _ ih =>
    rw [List.append_assoc]
    exact .lexeme ih

/-- More separators may stand before the first lexeme. -/
theorem Laid.after {gap : List Char} (hgap : ∀ c ∈ gap, Text.isSeparator c)
    (h : Laid (first :: lexemes) text) : Laid (first :: lexemes) (gap ++ text) := by
  induction gap with
  | nil => exact h
  | cons c gap ih =>
    exact .separator (hgap c List.mem_cons_self) (ih fun d hd => hgap d (List.mem_cons_of_mem c hd))

theorem laid_cons_iff : Laid (first :: lexemes) text ↔
    ∃ gap rest, text = gap ++ (first ++ rest) ∧ (∀ c ∈ gap, Text.isSeparator c) ∧
      Laid lexemes rest := by
  constructor
  · intro h
    generalize hl : first :: lexemes = all at h
    induction h with
    | nil => cases hl
    | @separator c _ _ _ hc _ ih =>
      obtain ⟨gap, rest, rfl, hgap, hrest⟩ := ih hl
      exact ⟨c :: gap, rest, rfl, by simpa [hc] using hgap, hrest⟩
    | lexeme h =>
      obtain ⟨rfl, rfl⟩ := List.cons.inj hl
      exact ⟨[], _, rfl, by simp, h⟩
  · rintro ⟨gap, rest, rfl, hgap, h⟩
    exact (Laid.lexeme h).after hgap

theorem Laid.split (h : Laid (lexemes ++ more) text) :
    ∃ before after, text = before ++ after ∧ Laid lexemes before ∧ Laid more after := by
  induction lexemes generalizing text with
  | nil => exact ⟨[], text, rfl, .nil, h⟩
  | cons first lexemes ih =>
    obtain ⟨gap, rest, rfl, hgap, hrest⟩ := laid_cons_iff.mp h
    obtain ⟨before, after, rfl, hbefore, hafter⟩ := ih hrest
    exact ⟨gap ++ (first ++ before), after, by simp, (Laid.lexeme hbefore).after hgap, hafter⟩

theorem Laid.length_le (h : Laid lexemes text) (hne : ∀ lexeme ∈ lexemes, lexeme ≠ []) :
    lexemes.length ≤ text.length := by
  induction h with
  | nil => exact Nat.le_refl 0
  | separator _ _ ih => exact Nat.le_succ_of_le (ih hne)
  | @lexeme lexeme text lexemes _ ih =>
    have hpos := List.length_pos_iff.mpr (hne lexeme List.mem_cons_self)
    have hle := ih fun l hl => hne l (List.mem_cons_of_mem _ hl)
    rw [List.length_cons, List.length_append]
    omega

/-- Every character is a separator or belongs to a lexeme. -/
theorem Laid.mem (h : Laid lexemes text) (hc : c ∈ text) :
    Text.isSeparator c ∨ ∃ lexeme ∈ lexemes, c ∈ lexeme := by
  induction h with
  | nil => cases hc
  | separator hd _ ih =>
    rcases List.mem_cons.mp hc with rfl | hc
    · exact .inl hd
    · exact ih hc
  | lexeme _ ih =>
    rcases List.mem_append.mp hc with hc | hc
    · exact .inr ⟨_, List.mem_cons_self, hc⟩
    · rcases ih hc with hc | ⟨lexeme, hmem, hc⟩
      · exact .inl hc
      · exact .inr ⟨lexeme, List.mem_cons_of_mem _ hmem, hc⟩

/-- No separator stands in a lexeme. -/
def Solid (lexemes : List (List Char)) : Prop :=
  ∀ lexeme ∈ lexemes, ∀ c ∈ lexeme, Text.isSeparator c = false

/-- Separators may be taken away. -/
theorem Laid.erase (hs : Solid lexemes) (hc : Text.isSeparator c) (h : Laid lexemes (p ++ c :: x)) :
    Laid lexemes (p ++ x) := by
  generalize htext : p ++ c :: x = text at h
  induction h generalizing p with
  | nil => simp at htext
  | separator hd h ih =>
    cases p with
    | nil =>
      obtain ⟨-, rfl⟩ := List.cons.inj htext
      exact h
    | cons d p =>
      obtain ⟨rfl, htail⟩ := List.cons.inj htext
      exact .separator hd (ih hs htail)
  | @lexeme lexeme rest lexemes h ih =>
    have hs' : Solid lexemes := fun l hl => hs l (List.mem_cons_of_mem _ hl)
    rcases List.append_eq_append_iff.mp htext with ⟨part, rfl, hx⟩ | ⟨part, rfl, hrest⟩
    · cases part with
      | nil =>
        rw [List.append_nil]
        exact .lexeme (ih (p := []) hs' hx)
      | cons d part =>
        obtain ⟨rfl, -⟩ := List.cons.inj hx
        cases hc.symm.trans (hs _ List.mem_cons_self c (by simp))
    · rw [List.append_assoc]
      exact .lexeme (ih hs' hrest.symm)

theorem Laid.eraseAll {gap : List Char} (hs : Solid lexemes) (hgap : ∀ c ∈ gap, Text.isSeparator c)
    (h : Laid lexemes (p ++ (gap ++ x))) : Laid lexemes (p ++ x) := by
  induction gap with
  | nil => exact h
  | cons c gap ih =>
    exact ih (fun d hd => hgap d (List.mem_cons_of_mem c hd))
      (h.erase hs (hgap c List.mem_cons_self))

/-- The text begins with lexemes of that kind, with separators before each of them. -/
def Begins (P : List (List Char) → Prop) (text : List Char) : Prop :=
  ∃ lexemes written rest, P lexemes ∧ Laid lexemes written ∧ text = written ++ rest

/-- Lexemes that hold neither separators nor slashes. -/
def Plain (lexemes : List (List Char)) : Prop :=
  Solid lexemes ∧ ∀ lexeme ∈ lexemes, '/' ∉ lexeme

theorem Plain.not_mem (hp : Plain lexemes) (h : Laid lexemes text) : '/' ∉ text := by
  intro hmem
  rcases h.mem hmem with hsep | ⟨lexeme, hlex, hc⟩
  · cases hsep
  · exact hp.2 lexeme hlex hc

/-- Without the filler the text begins with the same lexemes. The filler begins with separators;
what follows them, if anything does, is a comment. -/
theorem Begins.erase {P : List (List Char) → Prop} (hP : ∀ lexemes, P lexemes → Plain lexemes)
    {gap comment : List Char} (hgap : ∀ c ∈ gap, Text.isSeparator c)
    (hcomment : comment = [] ∨ comment.head? = some '/')
    (h : Begins P (p ++ (gap ++ (comment ++ x)))) : Begins P (p ++ x) := by
  obtain ⟨lexemes, written, rest, hlex, hlaid, heq⟩ := h
  have hplain := hP lexemes hlex
  -- The lexemes reach past none of the separators, or past all of them.
  have inside {part : List Char} (hw : written = p ++ part)
      (hpart : ∀ c ∈ part, Text.isSeparator c) : Begins P (p ++ x) := by
    refine ⟨lexemes, p, x, hlex, ?_, rfl⟩
    rw [hw, ← List.append_nil part] at hlaid
    simpa using hlaid.eraseAll hplain.1 hpart
  rcases List.append_eq_append_iff.mp heq with ⟨part, hw, hrest⟩ | ⟨part, rfl, -⟩
  · rcases List.append_eq_append_iff.mp hrest with ⟨more, rfl, hmore⟩ | ⟨more, rfl, -⟩
    · rcases hcomment with rfl | hslash
      · refine ⟨lexemes, p ++ more, rest, hlex, ?_, by simpa using hmore⟩
        rw [hw] at hlaid
        exact hlaid.eraseAll hplain.1 hgap
      · cases more with
        | nil => exact inside hw (by simpa using hgap)
        | cons c more =>
          -- A slash would stand among the lexemes.
          have hc : c = '/' := by
            cases comment with
            | nil => cases hslash
            | cons d comment =>
              cases hslash
              exact (List.cons.inj hmore).1.symm
          exact absurd (by simp [hw, hc]) (hplain.not_mem hlaid)
    · exact inside hw fun c hc => hgap c (List.mem_append_left _ hc)
  · exact ⟨lexemes, written, part ++ x, hlex, hlaid, by simp⟩

/-! ## Names and separators -/

/-- The text is a name. -/
def IsName (text : List Char) : Prop := text ≠ [] ∧ Token.nameLength text = text.length

theorem IsName.cons {name : List Char} (h : IsName name) :
    ∃ c rest, name = c :: rest ∧ Token.isNameStart c ∧ ∀ d ∈ rest, Token.isNamePart d := by
  obtain ⟨hne, hlen⟩ := h
  cases name with
  | nil => exact absurd rfl hne
  | cons c rest =>
    simp only [Token.nameLength, List.length_cons] at hlen
    split at hlen
    case isFalse => omega
    case isTrue hc =>
      have hall : rest.takeWhile Token.isNamePart = rest :=
        (List.takeWhile_prefix _).eq_of_length (by omega)
      refine ⟨c, rest, rfl, hc, fun d hd => ?_⟩
      rw [← hall] at hd
      exact List.all_eq_true.mp List.all_takeWhile d hd

theorem IsName.part {name : List Char} (h : IsName name) : ∀ c ∈ name, Token.isNamePart c := by
  obtain ⟨c, rest, rfl, hc, hrest⟩ := h.cons
  simpa using ⟨Token.isNamePart_of_isNameStart hc, hrest⟩

/-- No name part begins the text. -/
def EndsName (text : List Char) : Prop := ∀ c ∈ text.head?, Token.isNamePart c = false

theorem IsName.length {name rest : List Char} (h : IsName name) (hrest : EndsName rest) :
    Token.nameLength (name ++ rest) = name.length := by
  obtain ⟨c, more, rfl, hc, hmore⟩ := h.cons
  rw [List.cons_append, Token.nameLength, if_pos hc, Token.takeWhile_run hmore hrest,
    List.length_cons, Nat.add_comm]

theorem name?_of_isName {at_ : Cursor} {name rest : List Char} (h : IsName name)
    (hat : at_.rest = name ++ rest) (hrest : EndsName rest) :
    ∃ span after, name? at_ = some (String.ofList name, span, after) ∧ after.rest = rest := by
  have hlen := h.length hrest
  refine ⟨Token.spanOf at_ name.length, at_.advance name.length, ?_, by simp [Cursor.advance, hat]⟩
  unfold name?
  rw [hat, hlen]
  split
  case h_1 hzero => exact absurd (List.length_eq_zero_iff.mp hzero) h.1
  case h_2 => rw [List.take_left]

theorem isName_of_name? {at_ after : Cursor} {name : String} {span : Span}
    (h : name? at_ = some (name, span, after)) :
    at_.rest = name.toList ++ after.rest ∧ IsName name.toList := by
  unfold name? at h
  split at h
  case h_1 => cases h
  case h_2 hne =>
    cases h
    have hlen : (at_.rest.take (Token.nameLength at_.rest)).length = Token.nameLength at_.rest :=
      List.length_take_of_le (Token.cuts_name.le_length at_.rest)
    refine ⟨by simp [Cursor.advance], ?_⟩
    rw [String.toList_ofList, IsName, Token.cuts_name.take, hlen]
    exact ⟨fun hnil => hne (by rw [← hlen, hnil]; rfl), rfl⟩

/-- The text begins with no separator. -/
def Sharp (text : List Char) : Prop := ∀ c ∈ text.head?, Text.isSeparator c = false

theorem IsName.sharp {name : List Char} (h : IsName name) (rest : List Char) :
    Sharp (name ++ rest) := by
  obtain ⟨c, more, rfl, hc, -⟩ := h.cons
  intro d hd
  cases hd
  exact Token.isSeparator_of_isNamePart (Token.isNamePart_of_isNameStart hc)

theorem sharp_cons (hc : Text.isSeparator c = false) (rest : List Char) : Sharp (c :: rest) := by
  intro d hd
  cases hd
  exact hc

theorem skipSeparators_gap {at_ : Cursor} {gap rest : List Char} (hat : at_.rest = gap ++ rest)
    (hgap : ∀ c ∈ gap, Text.isSeparator c) (hrest : Sharp rest) :
    (skipSeparators at_).rest = rest := by
  show at_.rest.dropWhile Text.isSeparator = rest
  rw [hat, List.dropWhile_append_of_pos hgap]
  cases rest with
  | nil => rfl
  | cons c rest => simp [hrest c rfl]

theorem rest_advance {at_ : Cursor} {read rest : List Char} {count : Nat}
    (h : at_.rest = read ++ rest) (hcount : read.length = count) :
    (at_.advance count).rest = rest := by
  show at_.rest.drop count = rest
  rw [h, ← hcount, List.drop_left]

theorem gap_of_skipSeparators (at_ : Cursor) :
    ∃ gap, at_.rest = gap ++ (skipSeparators at_).rest ∧ ∀ c ∈ gap, Text.isSeparator c :=
  ⟨at_.rest.takeWhile Text.isSeparator, List.takeWhile_append_dropWhile.symm,
    fun c hc => List.all_eq_true.mp List.all_takeWhile c hc⟩

/-- A gap, then a lexeme that begins with no name part. -/
theorem endsName_gap {gap rest : List Char} (hgap : ∀ c ∈ gap, Text.isSeparator c)
    (hrest : EndsName rest) : EndsName (gap ++ rest) := by
  cases gap with
  | nil => exact hrest
  | cons d gap =>
    intro c hc
    cases hc
    exact Token.separator_cases (P := fun c => Token.isNamePart c = false) (by decide) d
      (hgap d List.mem_cons_self)

/-! ## Clauses -/

/-- A name that is no keyword. -/
def Names (name : List Char) : Prop := IsName name ∧ String.ofList name ∉ keywords

def clauseArrow : List Char := ['-', '>']

/-- A clause is written with its name and an arrow. -/
theorem lambda?_laid {at_ : Cursor} {clause : LambdaClause} (h : lambda? at_ = some clause) :
    ∃ written, at_.rest = written ++ clause.body.rest ∧ Names clause.name.toList ∧
      Laid [clause.name.toList, clauseArrow] written := by
  unfold lambda? at h
  obtain ⟨⟨name, span, after⟩, hname, h⟩ := Option.bind_eq_some_iff.mp h
  obtain ⟨gap, hat, hgap⟩ := gap_of_skipSeparators at_
  obtain ⟨gap', hafter, hgap'⟩ := gap_of_skipSeparators after
  obtain ⟨hrest, hisName⟩ := isName_of_name? hname
  simp only at h
  split at h
  case isTrue => cases h
  case isFalse hkeyword =>
    split at h
    case h_2 => cases h
    case h_1 rest harrow =>
      cases h
      refine ⟨gap ++ (name.toList ++ (gap' ++ clauseArrow)), ?_, ⟨hisName, ?_⟩, ?_⟩
      · rw [hat, hrest, hafter, harrow]
        simp [Cursor.advance, harrow, clauseArrow]
      · rw [String.ofList_toList]
        simpa using hkeyword
      · refine (Laid.lexeme ?_).after hgap
        refine Laid.after hgap' ?_
        simpa using (Laid.lexeme .nil : Laid [clauseArrow] (clauseArrow ++ []))

/-- What is written so is a clause. -/
theorem lambda?_of_laid {at_ : Cursor} {name written rest : List Char}
    (hat : at_.rest = written ++ rest) (hname : Names name)
    (h : Laid [name, clauseArrow] written) :
    ∃ clause, lambda? at_ = some clause ∧ clause.name = String.ofList name ∧
      clause.body.rest = rest := by
  obtain ⟨gap, after, rfl, hgap, h⟩ := laid_cons_iff.mp h
  obtain ⟨gap', last, rfl, hgap', h⟩ := laid_cons_iff.mp h
  cases h
  have harrow : Sharp (clauseArrow ++ ([] ++ rest)) := sharp_cons rfl _
  have hskip : (skipSeparators at_).rest = name ++ (gap' ++ (clauseArrow ++ ([] ++ rest))) :=
    skipSeparators_gap (by simpa using hat) hgap (hname.1.sharp _)
  have hends : EndsName (gap' ++ (clauseArrow ++ ([] ++ rest))) :=
    endsName_gap hgap' fun c hc => by cases hc; rfl
  obtain ⟨span, next, hfound, hnext⟩ := name?_of_isName hname.1 hskip hends
  have hskip' : (skipSeparators next).rest = '-' :: '>' :: rest := by
    rw [skipSeparators_gap hnext hgap' harrow]
    rfl
  have hkeyword : keywords.contains (String.ofList name) = false := by
    simpa using hname.2
  refine ⟨⟨String.ofList name, span, (skipSeparators next).advance 2⟩, ?_, rfl, ?_⟩
  · unfold lambda?
    simp only [hfound, bind, Option.bind, hkeyword, Bool.false_eq_true, if_false]
    split
    case h_1 => rfl
    case h_2 hne => exact absurd hskip' (hne rest)
  · simp [Cursor.advance, hskip']

/-! ## Parameter lists -/

/-- What follows the first parameter, up to the parenthesis. -/
def laterParams : List (List Char) → List (List Char)
  | [] => [[')']]
  | name :: names => [','] :: name :: laterParams names

/-- What follows the opening parenthesis. -/
def paramLexemes : List (List Char) → List (List Char)
  | [] => [[')']]
  | name :: names => name :: laterParams names

theorem paramsFrom_laid {fuel : Nat} {at_ after : Cursor} {params : List (String × Span)}
    (h : paramsFrom fuel at_ = some (params, after)) :
    ∃ first more written, params = first :: more ∧
      at_.rest = first.1.toList ++ (written ++ after.rest) ∧
      (∀ p ∈ params, IsName p.1.toList) ∧
      Laid (laterParams (more.map (·.1.toList))) written := by
  induction fuel generalizing at_ params with
  | zero => cases h
  | succ fuel ih =>
    unfold paramsFrom at h
    obtain ⟨⟨name, span, next⟩, hname, h⟩ := Option.bind_eq_some_iff.mp h
    obtain ⟨hrest, hisName⟩ := isName_of_name? hname
    obtain ⟨gap, hnext, hgap⟩ := gap_of_skipSeparators next
    simp only at h
    split at h
    case h_1 rest hcomma =>
      obtain ⟨⟨names, last⟩, hmore, h⟩ := Option.bind_eq_some_iff.mp h
      cases h
      obtain ⟨first, more, written, rfl, hfirst, hall, hlaid⟩ := ih hmore
      obtain ⟨gap', hafter, hgap'⟩ := gap_of_skipSeparators ((skipSeparators next).advance 1)
      refine ⟨(name, span), first :: more,
        gap ++ ([','] ++ (gap' ++ (first.1.toList ++ written))), rfl, ?_, ?_, ?_⟩
      · have hadvance : ((skipSeparators next).advance 1).rest = rest := by
          simp [Cursor.advance, hcomma]
        rw [hrest, hnext, hcomma, ← hadvance, hafter, hfirst]
        simp
      · simpa [hisName] using hall
      · exact (Laid.lexeme ((Laid.lexeme hlaid).after hgap')).after hgap
    case h_2 rest hparen =>
      cases h
      refine ⟨(name, span), [], gap ++ ([')'] ++ []), rfl, ?_, ?_, ?_⟩
      · rw [hrest, hnext, hparen]
        simp [Cursor.advance, hparen]
      · simpa using hisName
      · exact (Laid.lexeme .nil).after hgap
    case h_3 => cases h

theorem paramsFrom_of_laid {fuel : Nat} {at_ : Cursor} {name : List Char}
    {names : List (List Char)} {written rest : List Char} (hfuel : names.length < fuel)
    (hname : IsName name) (hnames : ∀ n ∈ names, IsName n)
    (hat : at_.rest = name ++ (written ++ rest)) (h : Laid (laterParams names) written) :
    ∃ params after, paramsFrom fuel at_ = some (params, after) ∧
      params.map (·.1) = (name :: names).map String.ofList ∧ after.rest = rest := by
  induction names generalizing fuel at_ name written with
  | nil =>
    obtain ⟨fuel, rfl⟩ : ∃ less, fuel = less + 1 := ⟨fuel - 1, by simp at hfuel; omega⟩
    obtain ⟨gap, last, rfl, hgap, h⟩ := laid_cons_iff.mp h
    cases h
    have hat' : at_.rest = name ++ (gap ++ (')' :: rest)) := by simpa using hat
    obtain ⟨span, next, hfound, hnext⟩ :=
      name?_of_isName hname hat' (endsName_gap hgap fun c hc => by cases hc; rfl)
    have hskip := skipSeparators_gap hnext hgap (sharp_cons rfl rest)
    refine ⟨[(String.ofList name, span)], (skipSeparators next).advance 1, ?_, rfl, ?_⟩
    · unfold paramsFrom
      simp only [hfound, bind, Option.bind]
      split
      case h_1 heq => rw [hskip] at heq; cases heq
      case h_2 => rfl
      case h_3 _ hne => exact absurd hskip (hne rest)
    · simp [Cursor.advance, hskip]
  | cons second names ih =>
    obtain ⟨fuel, rfl⟩ : ∃ less, fuel = less + 1 := ⟨fuel - 1, by simp at hfuel; omega⟩
    obtain ⟨gap, last, rfl, hgap, h⟩ := laid_cons_iff.mp h
    obtain ⟨gap', tail, rfl, hgap', h⟩ := laid_cons_iff.mp h
    have hsecond : IsName second := hnames second List.mem_cons_self
    have hat' : at_.rest = name ++ (gap ++ (',' :: (gap' ++ (second ++ (tail ++ rest))))) := by
      simpa using hat
    obtain ⟨span, next, hfound, hnext⟩ :=
      name?_of_isName hname hat' (endsName_gap hgap fun c hc => by cases hc; rfl)
    have hskip := skipSeparators_gap hnext hgap (sharp_cons rfl _)
    have hadvance :
        ((skipSeparators next).advance 1).rest = gap' ++ (second ++ (tail ++ rest)) := by
      simp [Cursor.advance, hskip]
    have hskip' := skipSeparators_gap hadvance hgap' (hsecond.sharp _)
    obtain ⟨params, after, hmore, hmap, hafter⟩ := ih (Nat.lt_of_succ_lt_succ hfuel) hsecond
      (fun n hn => hnames n (List.mem_cons_of_mem _ hn)) hskip' h
    refine ⟨(String.ofList name, span) :: params, after, ?_, by simp [hmap], hafter⟩
    unfold paramsFrom
    simp only [hfound, bind, Option.bind]
    split
    case h_1 => simp only [hmore]; rfl
    case h_2 heq => rw [hskip] at heq; cases heq
    case h_3 hne _ => exact absurd hskip (hne _)

/-! ## Definitions -/

def arrow (discard : Bool) : List Char := if discard then ['=', '>'] else ['-', '>']

/-- The lexemes of a signature: the name, with the parenthesis if there is a parameter list, and
what follows it up to the arrow. -/
inductive Heads (name : List Char) (params : List (List Char)) (discard : Bool) :
    List (List Char) → Prop
  | bare : params = [] → Heads name params discard [name, arrow discard]
  | list : Heads name params discard ((name ++ ['(']) :: (paramLexemes params ++ [arrow discard]))

theorem length_arrow (discard : Bool) : (arrow discard).length = 2 := by
  cases discard <;> rfl

theorem length_laterParams (names : List (List Char)) :
    names.length ≤ (laterParams names).length := by
  induction names with
  | nil => exact Nat.zero_le _
  | cons name names ih =>
    simp only [laterParams, List.length_cons]
    omega

theorem laterParams_ne_nil {names : List (List Char)} (h : ∀ n ∈ names, n ≠ []) :
    ∀ lexeme ∈ laterParams names, lexeme ≠ [] := by
  induction names with
  | nil => simp [laterParams]
  | cons name names ih =>
    have hrest := ih fun n hn => h n (List.mem_cons_of_mem _ hn)
    simpa [laterParams, h name List.mem_cons_self] using hrest

/-- A parameter list, or none, up to the place after it. -/
theorem params?_laid {at_ after : Cursor} {params : List (String × Span)}
    (h : params? at_ = some (params, after)) :
    (params = [] ∧ after = at_) ∨
      ∃ written, at_.rest = '(' :: (written ++ after.rest) ∧ (∀ p ∈ params, IsName p.1.toList) ∧
        Laid (paramLexemes (params.map (·.1.toList))) written := by
  unfold params? at h
  split at h
  case h_1 rest hparen =>
    right
    obtain ⟨gap, hinner, hgap⟩ := gap_of_skipSeparators (at_.advance 1)
    have hadvance : (at_.advance 1).rest = rest := by simp [Cursor.advance, hparen]
    rw [hadvance] at hinner
    simp only at h
    split at h
    case h_1 more hclose =>
      cases h
      have hlast : ((skipSeparators (at_.advance 1)).advance 1).rest = more := by
        show (skipSeparators (at_.advance 1)).rest.drop 1 = more
        rw [hclose]
        rfl
      refine ⟨gap ++ ([')'] ++ []), ?_, by simp, (Laid.lexeme .nil).after hgap⟩
      rw [hparen, hinner, hclose, hlast]
      simp
    case h_2 =>
      obtain ⟨first, more, written, rfl, hfirst, hall, hlaid⟩ := paramsFrom_laid h
      refine ⟨gap ++ (first.1.toList ++ written), ?_, hall, (Laid.lexeme hlaid).after hgap⟩
      rw [hparen, hinner, hfirst]
      simp
  case h_2 =>
    cases h
    exact .inl ⟨rfl, rfl⟩

theorem params?_of_laid {at_ : Cursor} {names : List (List Char)} {written rest : List Char}
    (hnames : ∀ n ∈ names, IsName n) (hat : at_.rest = '(' :: (written ++ rest))
    (h : Laid (paramLexemes names) written) :
    ∃ params after, params? at_ = some (params, after) ∧
      params.map (·.1) = names.map String.ofList ∧ after.rest = rest := by
  have hadvance : (at_.advance 1).rest = written ++ rest := by simp [Cursor.advance, hat]
  unfold params?
  split
  case h_2 hne => exact absurd hat (hne _)
  case h_1 =>
    cases names with
    | nil =>
      obtain ⟨gap, last, rfl, hgap, h⟩ := laid_cons_iff.mp h
      cases h
      have hopen : (at_.advance 1).rest = gap ++ (')' :: rest) := by simpa using hadvance
      have hinner := skipSeparators_gap hopen hgap (sharp_cons rfl rest)
      refine ⟨[], (skipSeparators (at_.advance 1)).advance 1, ?_, rfl, ?_⟩
      · simp only
        split
        case h_1 => rfl
        case h_2 hne => exact absurd hinner (hne rest)
      · show (skipSeparators (at_.advance 1)).rest.drop 1 = rest
        rw [hinner]
        rfl
    | cons name names =>
      obtain ⟨gap, tail, rfl, hgap, h⟩ := laid_cons_iff.mp h
      have hname : IsName name := hnames name List.mem_cons_self
      have hopen : (at_.advance 1).rest = gap ++ (name ++ (tail ++ rest)) := by simpa using hadvance
      have hinner := skipSeparators_gap hopen hgap (hname.sharp _)
      have hfuel : names.length < (skipSeparators (at_.advance 1)).rest.length + 1 := by
        have hle := h.length_le (laterParams_ne_nil fun n hn => (hnames n (by simp [hn])).1)
        have hlength := length_laterParams names
        rw [hinner]
        simp only [List.length_append]
        omega
      obtain ⟨params, after, hparams, hmap, hafter⟩ := paramsFrom_of_laid hfuel hname
        (fun n hn => hnames n (List.mem_cons_of_mem _ hn)) hinner h
      refine ⟨params, after, ?_, hmap, hafter⟩
      simp only
      split
      case h_1 hclose =>
        -- A name begins here, and no parenthesis.
        obtain ⟨c, more, rfl, hc, -⟩ := hname.cons
        rw [hinner] at hclose
        obtain ⟨rfl, -⟩ := List.cons.inj hclose
        cases hc
      case h_2 => exact hparams

/-- A definition is written with the lexemes of its signature. -/
theorem definition?_laid {text : List Char} {d : Definition} (h : definition? text = some d) :
    ∃ lexemes written, text = written ++ d.body.rest ∧ Names d.name.toList ∧
      (∀ p ∈ d.params, IsName p.1.toList) ∧
      Heads d.name.toList (d.params.map (·.1.toList)) d.discard lexemes ∧ Laid lexemes written := by
  unfold definition? at h
  obtain ⟨⟨name, span, next⟩, hname, h⟩ := Option.bind_eq_some_iff.mp h
  obtain ⟨gap, hat, hgap⟩ := gap_of_skipSeparators (Cursor.start text)
  obtain ⟨hrest, hisName⟩ := isName_of_name? hname
  simp only at h
  split at h
  case isTrue => cases h
  case isFalse hkeyword =>
    obtain ⟨⟨params, after⟩, hparams, h⟩ := Option.bind_eq_some_iff.mp h
    obtain ⟨gap', hafter, hgap'⟩ := gap_of_skipSeparators after
    have named : Names name.toList := ⟨hisName, by rw [String.ofList_toList]; simpa using hkeyword⟩
    -- The arrow follows, of one form or the other.
    have ends (discard : Bool) {rest : List Char}
        (harrow : (skipSeparators after).rest = arrow discard ++ rest) :
        ∃ lexemes written, text = written ++ rest ∧ Names name.toList ∧
          (∀ p ∈ params, IsName p.1.toList) ∧
          Heads name.toList (params.map (·.1.toList)) discard lexemes ∧ Laid lexemes written := by
      have last : Laid [arrow discard] (gap' ++ (arrow discard ++ [])) :=
        (Laid.lexeme .nil).after hgap'
      rw [harrow] at hafter
      rcases params?_laid hparams with ⟨rfl, rfl⟩ | ⟨written, hwritten, hall, hlaid⟩
      · refine ⟨_, gap ++ (name.toList ++ (gap' ++ (arrow discard ++ []))), ?_, named, by simp,
          .bare rfl, (Laid.lexeme last).after hgap⟩
        have htext : text = gap ++ (name.toList ++ (gap' ++ (arrow discard ++ rest))) := by
          rw [← hafter, ← hrest, ← hat]
          rfl
        simpa using htext
      · refine ⟨_, gap ++ ((name.toList ++ ['(']) ++ (written ++ (gap' ++ (arrow discard ++ [])))),
          ?_, named, hall, .list, (Laid.lexeme (hlaid.append last)).after hgap⟩
        have htext : text = gap ++
            (name.toList ++ '(' :: (written ++ (gap' ++ (arrow discard ++ rest)))) := by
          rw [← hafter, ← hwritten, ← hrest, ← hat]
          rfl
        simpa using htext
    simp only at h
    split at h
    case h_1 rest harrow =>
      cases h
      have hbody := rest_advance (show _ = arrow false ++ rest from harrow) rfl
      exact hbody ▸ ends false harrow
    case h_2 rest harrow =>
      cases h
      have hbody := rest_advance (show _ = arrow true ++ rest from harrow) rfl
      exact hbody ▸ ends true harrow
    case h_3 => cases h

/-- Once the name and the parameters are read, the arrow is found. -/
theorem definition?_of_arrow {text name gap rest : List Char} {params : List (String × Span)}
    {discard : Bool} {span : Span} {next after : Cursor} (hname : Names name)
    (hfound : name? (skipSeparators (Cursor.start text)) = some (String.ofList name, span, next))
    (hparams : params? next = some (params, after)) (hgap : ∀ c ∈ gap, Text.isSeparator c)
    (hafter : after.rest = gap ++ (arrow discard ++ rest)) :
    ∃ d, definition? text = some d ∧ d.name = String.ofList name ∧ d.params = params ∧
      d.discard = discard ∧ d.body.rest = rest := by
  have hkeyword : keywords.contains (String.ofList name) = false := by simpa using hname.2
  have hsharp : Sharp (arrow discard ++ rest) := by
    cases discard <;> exact sharp_cons rfl _
  have hskip := skipSeparators_gap hafter hgap hsharp
  refine ⟨⟨String.ofList name, span, params, discard, (skipSeparators after).advance 2⟩, ?_, rfl,
    rfl, rfl, rest_advance hskip (length_arrow discard)⟩
  unfold definition?
  simp only [hfound, bind, Option.bind, hkeyword, Bool.false_eq_true, if_false, hparams]
  cases discard with
  | false =>
    split
    case h_1 => rfl
    case h_2 heq => rw [hskip] at heq; cases heq
    case h_3 hne _ => exact absurd hskip (hne rest)
  | true =>
    split
    case h_1 heq => rw [hskip] at heq; cases heq
    case h_2 => rfl
    case h_3 _ hne => exact absurd hskip (hne rest)

/-- No parameter list begins with a separator or an arrow. -/
theorem params?_of_arrow {at_ : Cursor} {gap rest : List Char} {discard : Bool}
    (hgap : ∀ c ∈ gap, Text.isSeparator c) (hat : at_.rest = gap ++ (arrow discard ++ rest)) :
    params? at_ = some ([], at_) := by
  unfold params?
  split
  case h_2 => rfl
  case h_1 hparen =>
    rw [hat] at hparen
    cases gap with
    | nil => cases discard <;> cases hparen
    | cons c gap =>
      obtain ⟨rfl, -⟩ := List.cons.inj hparen
      cases hgap _ List.mem_cons_self

/-- What is written so is a definition. -/
theorem definition?_of_laid {text name written rest : List Char} {params lexemes : List (List Char)}
    {discard : Bool} (htext : text = written ++ rest) (hname : Names name)
    (hparams : ∀ n ∈ params, IsName n) (hheads : Heads name params discard lexemes)
    (h : Laid lexemes written) :
    ∃ d, definition? text = some d ∧ d.name = String.ofList name ∧
      d.params.map (·.1) = params.map String.ofList ∧ d.discard = discard ∧ d.body.rest = rest := by
  cases hheads with
  | bare hnil =>
    obtain ⟨gap, after, rfl, hgap, h⟩ := laid_cons_iff.mp h
    obtain ⟨gap', last, rfl, hgap', h⟩ := laid_cons_iff.mp h
    cases h
    have hstart :
        (Cursor.start text).rest = gap ++ (name ++ (gap' ++ (arrow discard ++ rest))) := by
      show text = _
      simpa using htext
    have hskip := skipSeparators_gap hstart hgap (hname.1.sharp _)
    have hends : EndsName (arrow discard ++ rest) := by
      cases discard <;> exact fun c hc => by cases hc; rfl
    obtain ⟨span, next, hfound, hnext⟩ :=
      name?_of_isName hname.1 hskip (endsName_gap hgap' hends)
    obtain ⟨d, hd, hdname, hnone, hbody⟩ :=
      definition?_of_arrow hname hfound (params?_of_arrow hgap' hnext) hgap' hnext
    exact ⟨d, hd, hdname, by rw [hnone, hnil]; rfl, hbody⟩
  | list =>
    obtain ⟨gap, after, rfl, hgap, h⟩ := laid_cons_iff.mp h
    obtain ⟨list, last, rfl, hlist, h⟩ := h.split
    obtain ⟨gap', final, rfl, hgap', h⟩ := laid_cons_iff.mp h
    cases h
    have hstart : (Cursor.start text).rest =
        gap ++ (name ++ '(' :: (list ++ (gap' ++ (arrow discard ++ rest)))) := by
      show text = _
      simpa using htext
    have hskip := skipSeparators_gap hstart hgap (hname.1.sharp _)
    obtain ⟨span, next, hfound, hnext⟩ :=
      name?_of_isName hname.1 hskip fun c hc => by cases hc; rfl
    obtain ⟨found, last, hparams, hmap, hlast⟩ := params?_of_laid hparams hnext hlist
    obtain ⟨d, hd, hdname, hall, hbody⟩ :=
      definition?_of_arrow hname hfound hparams hgap' hlast
    exact ⟨d, hd, hdname, by rw [hall, hmap], hbody⟩

end TagExpr.Signature
