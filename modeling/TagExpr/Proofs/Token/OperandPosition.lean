import TagExpr.Proofs.Token.Classification

/-!
# Tokens in operand position

What the longest lexeme makes of the marks that overlap: names with marks that select a frame, names
behind a dot, and paths. Each of them is the longest lexeme wherever the text goes on with something
that cannot extend it.
-/

open scoped Computability

namespace TagExpr.Token

open Signature (IsName)

variable {lookup : Lookup} {marks name rest text before gap tail : List Char} {call : Bool}

/-! ## Names -/

theorem callable_of_name (hn : IsName name) (call : Bool) :
    name ++ opener call ∈ callablePattern := by
  refine Language.append_mem_mul (mem_namePattern.mpr hn) ?_
  cases call with
  | true => exact .inr (mem_among.mpr ⟨'(', by simp, rfl⟩)
  | false => exact .inl rfl

theorem dotted_of_name (hn : IsName name) (call : Bool) : name ++ opener call ∈ dottedPattern :=
  Language.mem_mul.mpr ⟨[], .inl rfl, _, callable_of_name hn call, rfl⟩

theorem dotted_of_internal (hn : IsName name) (call : Bool) :
    '.' :: (name ++ opener call) ∈ dottedPattern :=
  Language.mem_mul.mpr
    ⟨['.'], .inr (mem_among.mpr ⟨'.', by simp, rfl⟩), _, callable_of_name hn call, rfl⟩

/-- No filler stands before a name with marks. -/
theorem clear_of_marks (hm : Marks lookup marks) {w : List Char} (hw : w ∈ dottedPattern)
    (rest : List Char) : Clear (marks ++ (w ++ rest)) := by
  obtain ⟨c, more, hcons, hc⟩ := @dotted_head _ rest hw
  have hsep : Text.isSeparator c = false := by
    rcases hc with hc | ⟨rfl, -⟩
    · exact isSeparator_of_isNamePart (isNamePart_of_isNameStart hc)
    · rfl
  have hne {x : Char} (hstart : isNameStart x = false) (hdot : x ≠ '.') : c ≠ x := by
    rintro rfl
    rcases hc with hc | ⟨rfl, -⟩
    · cases hstart.symm.trans hc
    · exact hdot rfl
  rw [hcons]
  refine clear_of_startsIn ?_
  cases hm with
  | none =>
    exact startsIn_cons hsep fun _ hslash => absurd hslash (hne (by decide) (by decide))
  | here | backslash => exact startsIn_cons rfl fun _ hslash => by cases hslash
  | up levels =>
    rw [List.replicate_succ, List.flatten_cons]
    exact startsIn_cons rfl fun _ hslash => by cases hslash
  | slash =>
    refine startsIn_cons rfl fun _ _ d hd => ?_
    cases hd
    exact ⟨hne (by decide) (by decide), hne (by decide) (by decide)⟩

/-- The class that is longer than all others is found. -/
theorem longestClass?_of_lt (cls : OperandClass) (hpos : 0 < cls.length text)
    (h : ∀ other : OperandClass, other ≠ cls → other.length text < cls.length text) :
    longestClass? text = some (cls, cls.length text) := by
  obtain ⟨found, n, hfound⟩ := exists_longestClass? hpos
  have hmax := longestClass?_max hfound cls
  obtain rfl := longestClass?_length hfound
  by_cases hcls : found = cls
  · rw [hfound, hcls]
  · have := h found hcls
    omega

/-- What begins with a mark is no keyword. -/
theorem length_keyword_of_mark {c : Char} (hc : isMark c) (rest : List Char) :
    ∀ cls ∈ OperandClass.keywords, cls.length (c :: rest) = 0 := by
  intro cls hcls
  obtain ⟨keyword, hk, hlength⟩ := length_keywords cls hcls
  rw [hlength]
  exact symbolLength_of_head (keyword_head keyword hk) hc rest

theorem identLength_internal (hm : Marks lookup marks) (hn : IsName name) (h : NameEnds call rest) :
    identLength (marks ++ '.' :: (name ++ (opener call ++ rest))) =
      (marks ++ '.' :: (name ++ opener call)).length := by
  have hmarks := @lookupMarks_dotted _ rest _ _ hm (dotted_of_internal hn call)
  simp only [List.cons_append, List.append_assoc] at hmarks
  have hpos := List.length_pos_iff.mpr hn.1
  have hcallable := callableLength_name hn h
  have hne : (name ++ opener call).length ≠ 0 := by
    rw [List.length_append]
    omega
  have hdotted : dottedLength ('.' :: (name ++ (opener call ++ rest))) =
      1 + (name ++ opener call).length := by
    rw [dottedLength, hcallable, if_neg hne]
  rw [identLength_eq, hmarks, List.drop_left, hdotted, if_neg (by omega)]
  simp only [List.length_append, List.length_cons]
  omega

/-- An internal name is found wherever it ends. -/
theorem longestClass?_internal (hm : Marks lookup marks) (hn : IsName name)
    (h : NameEnds call rest) :
    longestClass? (marks ++ '.' :: (name ++ (opener call ++ rest))) =
      some (.ident, (marks ++ '.' :: (name ++ opener call)).length) := by
  have hlength := identLength_internal hm hn h
  have hpos := List.length_pos_iff.mpr hn.1
  obtain ⟨d, more, hcons, hd⟩ := IsName.head hn (opener call ++ rest)
  have hdot : d ≠ '.' := isNamePart_ne (isNamePart_of_isNameStart hd) (by decide)
  rw [← hlength]
  refine longestClass?_of_lt .ident ?_ fun other hother => ?_
  · simp only [OperandClass.length, hlength, List.length_append, List.length_cons]
    omega
  · have hle :
        other.length (marks ++ '.' :: (name ++ (opener call ++ rest))) ≤ marks.length + 1 := by
      rw [hcons]
      have hmem := mem_all other
      rw [OperandClass.all_eq, List.append_assoc, List.append_assoc, List.mem_append] at hmem
      by_cases hne : marks = []
      · subst hne
        rcases hmem with hkey | hmem
        · rw [List.nil_append, length_keyword_of_mark rfl _ other hkey]
          exact Nat.zero_le _
        · by_cases hpath : other = .path
          · subst hpath
            exact Nat.le_of_eq (pathLength_dot hdot more)
          · have hdigits : digitsLength (d :: more) = 0 := by
              simp [digitsLength, isDigit_of_isNameStart hd]
            rw [List.nil_append, length_of_mark rfl (fun _ => hdigits) other
              (by simpa [hother] using hmem) hpath]
            exact Nat.zero_le _
      · rcases hmem with hkey | hmem
        · obtain ⟨c, after, rfl⟩ := List.exists_cons_of_ne_nil hne
          rw [List.cons_append,
            length_keyword_of_mark (hm.isMark c List.mem_cons_self) _ other hkey]
          exact Nat.zero_le _
        · refine Nat.le_succ_of_le (length_beside_marks hm hne (fun after heq => ?_) other
            (by simpa [hother] using hmem))
          exact hdot (List.cons.inj (List.cons.inj heq).2).1
    refine Nat.lt_of_le_of_lt hle ?_
    simp only [OperandClass.length, hlength, List.length_append, List.length_cons]
    omega

theorem identOf_internal (hm : Marks lookup marks) (hn : IsName name) (call : Bool) :
    identOf (marks ++ '.' :: (name ++ opener call)) =
      ⟨.internal (String.ofList name), lookup, call⟩ := by
  have hmarks := @lookupMarks_dotted _ [] _ _ hm (dotted_of_internal hn call)
  rw [List.append_nil] at hmarks
  simp only [identOf, hmarks, List.drop_left, splitCall_name hn]

/-! ## Paths -/

/-- A path that goes one level up, and then `more` levels. -/
def upward (more : Nat) : List Char := "..".toList ++ (List.replicate more "/..".toList).flatten

theorem length_upward (more : Nat) : (upward more).length = 2 + 3 * more := by
  rw [upward, List.length_append]
  simp [Nat.mul_comm]

theorem upward_append (more : Nat) (rest : List Char) : upward more ++ rest =
    '.' :: '.' :: ((List.replicate more "/..".toList).flatten ++ rest) := by
  rw [upward, List.append_assoc]
  rfl

/-- The pairs of dots of a path, but for the last, are marks. -/
theorem upward_eq (more : Nat) :
    upward more = (List.replicate more ['.', '.', '/']).flatten ++ ['.', '.'] := by
  unfold upward
  induction more with
  | zero => rfl
  | succ more ih =>
    rw [List.replicate_succ, List.replicate_succ, List.flatten_cons, List.flatten_cons,
      List.append_assoc, ← ih]
    rfl

theorem mem_pathPattern (more : Nat) : upward more ∈ pathPattern :=
  .inr (Language.append_mem_mul (mem_word.mpr rfl) (mem_star_word.mpr ⟨more, rfl⟩))

theorem identLength_upward (more : Nat) (hrest : rest.head? ≠ some '/') :
    identLength (upward more ++ rest) = 0 := by
  have hascents : ascents ('.' :: '.' :: rest) = 0 := by
    unfold ascents
    split
    case h_1 heq =>
      rw [(List.cons.inj (List.cons.inj heq).2).2] at hrest
      exact absurd rfl hrest
    case h_2 => rfl
  have hnone : lookupMarks ('.' :: '.' :: rest) = (.unstated, 0) := by
    unfold lookupMarks
    split
    case h_1 heq | h_2 heq | h_3 heq => simp at heq
    case h_4 => simp only [hascents]
  have hmarks : ∃ lookup, Marks lookup (List.replicate more ['.', '.', '/']).flatten := by
    cases more with
    | zero => exact ⟨_, .none⟩
    | succ more => exact ⟨_, .up more⟩
  obtain ⟨lookup, hm⟩ := hmarks
  have hfound := lookupMarks_marks hm hascents hnone
  have hdotted : dottedLength ('.' :: '.' :: rest) = 0 := by
    rw [dottedLength]
    exact if_pos rfl
  rw [upward_eq, List.append_assoc, identLength_eq]
  simp only [List.cons_append, List.nil_append, hfound, List.drop_left, hdotted, if_true]

theorem pathLength_upward (more : Nat) (hrest : rest.head? ≠ some '/') :
    pathLength (upward more ++ rest) = (upward more).length := by
  have hfurther : furtherParents rest = 0 := by
    unfold furtherParents
    split
    case h_1 => exact absurd rfl hrest
    case h_2 => rfl
  have hreach : pathReach (upward more ++ rest) = (upward more).length := by
    rw [upward_append, pathReach, furtherParents_append, hfurther, length_upward, Nat.add_zero]
  have hsuffix : suffixLength ['/'] rest = 0 := by
    cases rest with
    | nil => rfl
    | cons c rest => exact if_neg (by simpa [eq_comm] using hrest)
  rw [pathLength_eq, hreach, List.drop_left, hsuffix, ite_self, Nat.add_zero]

/-- A path is found wherever no slash follows it. -/
theorem longestClass?_upward (more : Nat) (hrest : rest.head? ≠ some '/') :
    longestClass? (upward more ++ rest) = some (.path, (upward more).length) := by
  have hpath : OperandClass.path.length (upward more ++ rest) = (upward more).length :=
    pathLength_upward more hrest
  have hpos : 0 < (upward more).length := by
    rw [length_upward]
    omega
  rw [← hpath] at hpos ⊢
  refine longestClass?_of_lt .path hpos fun other hother => ?_
  have hzero : other.length (upward more ++ rest) = 0 := by
    by_cases hident : other = .ident
    · subst hident
      exact identLength_upward more hrest
    · have hle := OperandClass.length_le_reach hother (upward more ++ rest)
      rw [upward_append, reach_of_dots _ hident hother] at hle
      rw [upward_append]
      omega
  rwa [hzero]

/-! ## What is read -/

/-- Behind a gap the lexeme is read as a token of that kind, which stands for no more than it. -/
def ReadsAs (lexeme rest : List Char) (kind : TokenKind) : Prop :=
  ∀ before gap, Gap .operand false gap →
    at? .operand (before ++ (gap ++ (lexeme ++ rest))) (byteLength before) =
      .ok ⟨kind, Span.ofRange (byteLength before + byteLength gap)
        (byteLength before + byteLength gap + byteLength lexeme)⟩

theorem readsAs_of_longestClass? {cls : OperandClass} {lexeme : List Char} {kind : TokenKind}
    (hne : lexeme ≠ []) (hclear : Clear (lexeme ++ rest))
    (hclass : longestClass? (lexeme ++ rest) = some (cls, lexeme.length))
    (hkind : cls.token lexeme = .ok kind) : ReadsAs lexeme rest kind := by
  intro before gap hgap
  have hgap : Gap .operand (lexeme ++ rest).isEmpty gap := by
    rwa [List.isEmpty_eq_false_iff.mpr (by simp [hne])]
  rw [at?_of_longestClass? hgap hclear hclass, List.take_left, hkind]
  rfl

theorem readsAs_name (hm : Marks lookup marks) (hn : IsName name) (h : NameEnds call rest)
    (hplain : marks = [] → call = false → String.ofList name ∉ Signature.keywords) :
    ReadsAs (marks ++ (name ++ opener call)) rest
      (.ident ⟨.name (String.ofList name), lookup, call⟩) := by
  have hclear := clear_of_marks hm (dotted_of_name hn call) rest
  have hclass := longestClass?_name hm hn h hplain
  rw [← List.append_assoc name, ← List.append_assoc] at hclass
  rw [← List.append_assoc] at hclear
  refine readsAs_of_longestClass? (by simp [hn.1]) hclear hclass ?_
  rw [OperandClass.token, identOf_name hm hn]

theorem readsAs_internal (hm : Marks lookup marks) (hn : IsName name) (h : NameEnds call rest) :
    ReadsAs (marks ++ '.' :: (name ++ opener call)) rest
      (.ident ⟨.internal (String.ofList name), lookup, call⟩) := by
  have hclear := clear_of_marks hm (dotted_of_internal hn call) rest
  have hclass := longestClass?_internal hm hn h
  rw [← List.append_assoc name, ← List.cons_append, ← List.append_assoc] at hclass
  rw [← List.append_assoc] at hclear
  refine readsAs_of_longestClass? (by simp) hclear hclass ?_
  rw [OperandClass.token, identOf_internal hm hn]

/-- What is longer than a keyword with which it begins is none. -/
theorem not_mem_keywords_of_longer {keyword : String} (hk : keyword ∈ Signature.keywords)
    {more : List Char} (hne : more ≠ []) :
    String.ofList (keyword.toList ++ more) ∉ Signature.keywords := by
  have distinct : ∀ keyword ∈ Signature.keywords, ∀ other ∈ Signature.keywords,
      keyword.toList <+: other.toList → keyword = other := by decide
  intro hmem
  have heq := distinct keyword hk _ hmem (by simp)
  rw [← String.toList_inj, String.toList_ofList] at heq
  exact hne (List.self_eq_append_right.mp heq)

theorem readsAs_upward (more : Nat) (hrest : rest.head? ≠ some '/') :
    ReadsAs (upward more) rest (.ident { kind := .current (more + 1) }) := by
  have hclear : Clear (upward more ++ rest) := by
    rw [upward_append]
    exact clear_of_startsIn (startsIn_cons rfl fun _ hslash => by cases hslash)
  refine readsAs_of_longestClass? (by simp [upward]) hclear (longestClass?_upward more hrest) ?_
  have hlevels : pathLevels (upward more) = more + 1 := by
    have hfurther := furtherParents_append more []
    rw [List.append_nil] at hfurther
    show 1 + furtherParents (List.replicate more "/..".toList).flatten = more + 1
    rw [hfurther, Nat.add_comm]
    rfl
  rw [OperandClass.token, hlevels]

/-- **Where an operand is expected, the longest lexeme of all patterns is read.** From any place on
a text is a gap and what follows it. If any pattern has a lexeme there, the token is that of the
longest one, by the first class that has it, so that the keywords win over names; where none has one
it is the end of the text or an error, and a comment that is never closed is an error. Two things go
wrong: a path of two dots or more takes the slash along that follows it, and a tilde before a slash
is an error where it opens no pattern literal. So names are found wherever they end, with the frame
that the marks before them select and the parenthesis right behind them, also if they begin with a
keyword; a dot behind the marks makes an internal name; and paths are found wherever no slash
follows them. -/
theorem longest_pattern_is_read (text : List Char) (offset : Nat) :
    let found := at? .operand text offset
    (∀ before rest, text = before ++ rest → ∃ gap tail, rest = gap ++ tail ∧
      (Gap .operand tail.isEmpty gap ∧ Clear tail ∨ Gap .operand false gap ∧ Unclosed tail)) ∧
    (∀ before gap tail, text = before ++ (gap ++ tail) → byteLength before = offset →
      let start := offset + byteLength gap
      (Gap .operand tail.isEmpty gap → Clear tail →
        ((∃ (cls : OperandClass) (lexeme : List Char), lexeme ∈ cls.pattern ∧ lexeme <+: tail) →
          ∃ cls lexeme, Best tail cls lexeme) ∧
        (∀ cls lexeme, Best tail cls lexeme → (cls = .symbol → ¬ "~/".toList <+: tail) →
          found = tokenAt (cls.token lexeme)
            (Span.ofRange start (start + byteLength lexeme + overread cls lexeme tail))) ∧
        (∀ lexeme, Best tail .symbol lexeme → "~/".toList <+: tail →
          ∃ span, found = .error ⟨.unexpectedChar '~' .operand, span⟩) ∧
        ((∀ (cls : OperandClass) (lexeme : List Char), lexeme ∈ cls.pattern → ¬ lexeme <+: tail) →
          tail = [] ∧ found = .ok ⟨.finish, Span.point start⟩ ∨
          tail ≠ [] ∧ ∃ e, found = .error e)) ∧
      (Gap .operand false gap → Unclosed tail →
        found = .error ⟨.unterminatedComment, Span.ofRange start (start + 2)⟩)) ∧
    ((∀ before rest, text = before ++ rest → byteLength before ≠ offset) →
      found = .ok ⟨.finish, Span.point (byteLength text)⟩) ∧
    (∀ lookup marks name call rest, Marks lookup marks → IsName name → NameEnds call rest →
      ((marks = [] → call = false → String.ofList name ∉ Signature.keywords) →
        ReadsAs (marks ++ (name ++ opener call)) rest
          (.ident ⟨.name (String.ofList name), lookup, call⟩)) ∧
      ReadsAs (marks ++ '.' :: (name ++ opener call)) rest
        (.ident ⟨.internal (String.ofList name), lookup, call⟩)) ∧
    (∀ keyword ∈ Signature.keywords, ∀ more call rest, IsName (keyword.toList ++ more) →
      NameEnds call rest → more ≠ [] ∨ call = true →
        ReadsAs (keyword.toList ++ more ++ opener call) rest
          (.ident ⟨.name (String.ofList (keyword.toList ++ more)), .unstated, call⟩)) ∧
    ∀ more rest, rest.head? ≠ some '/' →
      ReadsAs (upward more) rest (.ident { kind := .current (more + 1) }) := by
  have hm : LexMode.operand ≠ .member := by simp
  refine ⟨fun _ rest _ => exists_place hm rest, ?_, fun h => at?_of_no_place _ h,
    fun lookup marks name call rest hmarks hn hends =>
      ⟨fun hplain => readsAs_name hmarks hn hends hplain, readsAs_internal hmarks hn hends⟩,
    fun keyword hk more call rest hn hends hmore => ?_, fun more rest => readsAs_upward more⟩
  · rintro before gap tail rfl rfl
    refine ⟨fun hgap htail => ⟨?_, ?_, ?_, ?_⟩, ?_⟩
    · rintro ⟨cls, lexeme, hmem, hhead⟩
      exact exists_best hmem hhead
    · exact fun cls lexeme hbest htilde => at?_of_best hgap htail hbest htilde
    · intro lexeme hbest htilde
      have hne : tail ≠ [] := by
        rintro rfl
        exact absurd htilde (by simp)
      obtain ⟨first, span, hfirst, hat⟩ :=
        at?_of_no_class hgap htail hne (hbest.longestClass?_tilde htilde)
      obtain ⟨more, rfl⟩ := htilde
      cases hfirst
      exact ⟨span, hat⟩
    · intro hnone
      by_cases hne : tail = []
      · subst hne
        refine .inl ⟨rfl, ?_⟩
        rw [at?_eq, next_of_clear hm hgap htail]
        rfl
      · obtain ⟨_, _, -, hat⟩ := at?_of_no_class hgap htail hne (longestClass?_of_no_pattern hnone)
        exact .inr ⟨hne, _, hat⟩
    · intro hgap htail
      show at? .operand (before ++ (gap ++ tail)) (byteLength before) = _
      rw [at?_eq, next_of_unclosed hm hgap htail]
      rfl
  · refine readsAs_name .none hn hends fun _ hcall => not_mem_keywords_of_longer hk ?_
    exact hmore.resolve_right (by simp [hcall])

/-- Two frames up, a call and what follows it. -/
theorem longest_pattern_is_read_of_ascent :
    ReadsAs "../../total(".toList "1)".toList (.ident ⟨.name "total", .backreach 2, true⟩) := by
  obtain ⟨-, -, -, hnames, -⟩ := longest_pattern_is_read "../../total(1)".toList 0
  exact (hnames (.backreach 2) "../../".toList "total".toList true "1)".toList (.up 1)
    ⟨by decide, by decide⟩ (fun h => by cases h)).1 (fun h => by cases h)

theorem best_of_slash : Best "../".toList .path "..".toList where
  mem := mem_pathPattern 0
  head := by decide
  longest := by
    have short : ∀ other ∈ OperandClass.all, other.reach "../".toList ≤ 2 := by decide
    rintro other more hmem ⟨rest, heq⟩
    have hle := (OperandClass.measures_pattern other).complete more hmem rest
    rw [heq] at hle
    exact Nat.le_trans hle (short other (mem_all other))
  first := by
    have short : ∀ other ∈ OperandClass.all.takeWhile (· ≠ .path), other.reach "..".toList = 0 := by
      decide
    refine ⟨OperandClass.all.takeWhile (· ≠ .path), [.annotated, .emptyMap, .symbol, .comma], rfl,
      fun other hother hmem => ?_⟩
    have hle := (OperandClass.measures_pattern other).complete _ hmem []
    rw [List.append_nil, short other hother] at hle
    exact absurd hle (by decide)

/-- Not always is the longest lexeme all that is read: `../` is read as the path of its dots, but
the slash goes with it. -/
theorem path_takes_slash : ¬ ∀ before gap tail cls lexeme, Gap .operand tail.isEmpty gap →
    Clear tail → Best tail cls lexeme →
      at? .operand (before ++ (gap ++ tail)) (byteLength before) =
        tokenAt (cls.token lexeme) (Span.ofRange (byteLength before + byteLength gap)
          (byteLength before + byteLength gap + byteLength lexeme)) := by
  intro h
  have hclear : Clear "../".toList :=
    clear_of_startsIn (startsIn_cons rfl fun _ hslash => by cases hslash)
  have hexact := h [] [] _ _ _ .nil hclear best_of_slash
  rw [at?_of_best .nil hclear best_of_slash (by simp)] at hexact
  exact absurd hexact (by decide)

end TagExpr.Token
