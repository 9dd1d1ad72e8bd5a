import Mathlib.Data.Finset.Max
import TagExpr.Proofs.Token.Patterns
import TagExpr.Proofs.Token.Places
import TagExpr.Proofs.Token.Spelling

/-!
# The longest lexeme of all classes

Where an operand is expected, the token is that of the longest text at hand that one of the patterns
has (`Best`), and of two classes that have it that of the one listed first. Two texts are read
otherwise: a path that a slash follows takes the slash along (`overread`), and a tilde before a
slash is an error if no pattern literal begins there.
-/

open scoped Computability

namespace TagExpr.Token

variable {text lexeme : List Char} {cls : OperandClass}

/-- The longest lexeme that any class has at the head of the text, with the first class that has it.
-/
structure Best (text : List Char) (cls : OperandClass) (lexeme : List Char) : Prop where
  mem : lexeme ∈ cls.pattern
  head : lexeme <+: text
  longest : ∀ (other : OperandClass) (more : List Char), more ∈ other.pattern → more <+: text →
    more.length ≤ lexeme.length
  first : ∃ before after, OperandClass.all = before ++ cls :: after ∧
    ∀ other ∈ before, lexeme ∉ other.pattern

namespace OperandClass

theorem nil_not_mem_mul {L M : Language Char} (h : [] ∉ L) : [] ∉ L * M := by
  intro hmem
  obtain ⟨a, ha, b, -, heq⟩ := Language.mem_mul.mp hmem
  exact h ((List.append_eq_nil_iff.mp heq).1 ▸ ha)

theorem nil_not_mem_anyOf {words : List String} (h : "" ∉ words) : [] ∉ anyOf words := by
  rintro ⟨word, hmem, heq⟩
  exact h (String.toList_eq_nil_iff.mp heq.symm ▸ hmem)

/-- No lexeme is empty. -/
theorem nil_not_mem_pattern (cls : OperandClass) : [] ∉ cls.pattern := by
  cases cls with
  | null | emptyMap | comma | symbol => exact nil_not_mem_anyOf (by decide)
  | bool value => cases value <;> exact nil_not_mem_anyOf (by decide)
  | int => exact nil_not_mem_mul nil_not_mem_digits
  | hexInt => exact nil_not_mem_mul (nil_not_mem_anyOf (by decide))
  | double =>
    rintro (((h | h) | h) | h)
    · exact nil_not_mem_mul
        (nil_not_mem_mul (nil_not_mem_mul (nil_not_mem_mul nil_not_mem_digits))) h
    · exact nil_not_mem_mul (nil_not_mem_mul (nil_not_mem_mul (nil_not_mem_anyOf (by decide)))) h
    · exact nil_not_mem_mul (nil_not_mem_mul nil_not_mem_digits) h
    · exact nil_not_mem_mul nil_not_mem_digits h
  | doubleQuoted | singleQuoted => exact nil_not_mem_mul nil_not_mem_among
  | regex => exact nil_not_mem_mul (nil_not_mem_anyOf (by decide))
  | ident =>
    intro h
    obtain ⟨_, -, name, hname, heq⟩ := Language.mem_mul.mp h
    obtain ⟨_, -, callable, hcallable, heq'⟩ := Language.mem_mul.mp hname
    rw [(List.append_eq_nil_iff.mp heq).2] at heq'
    exact nil_not_mem_callable ((List.append_eq_nil_iff.mp heq').2 ▸ hcallable)
  | path =>
    rintro (h | h)
    · exact nil_not_mem_anyOf (by decide) h
    · exact nil_not_mem_mul (nil_not_mem_anyOf (by decide)) h
  | annotated => exact nil_not_mem_mul (nil_not_mem_anyOf (by decide))

/-- Only a path may be longer than its pattern has it. -/
theorem length_le_reach (hcls : cls ≠ .path) (text : List Char) :
    cls.length text ≤ cls.reach text := by
  cases cls with
  | path => exact absurd rfl hcls
  | symbol =>
    rw [length, reach]
    split
    · exact Nat.zero_le _
    · exact Nat.le_refl _
  | _ => exact Nat.le_refl _

end OperandClass

theorem Best.pos (h : Best text cls lexeme) : 0 < lexeme.length :=
  List.length_pos_iff.mpr fun hnil => cls.nil_not_mem_pattern (hnil ▸ h.mem)

theorem Best.reach_le (h : Best text cls lexeme) (other : OperandClass) :
    other.reach text ≤ lexeme.length := by
  rcases Nat.eq_zero_or_pos (other.reach text) with hzero | hpos
  · omega
  · have hmem := (OperandClass.measures_pattern other).sound text hpos
    have hle := h.longest other _ hmem (List.take_prefix _ text)
    rwa [List.length_take_of_le (other.reach_le_length text)] at hle

theorem Best.reach_eq (h : Best text cls lexeme) : cls.reach text = lexeme.length := by
  obtain ⟨rest, rfl⟩ := h.head
  exact Nat.le_antisymm (h.reach_le cls) ((OperandClass.measures_pattern cls).complete _ h.mem rest)

/-- The classes that are preferred have shorter lexemes. -/
theorem Best.reach_lt (h : Best text cls lexeme) {other : OperandClass}
    (hother : lexeme ∉ other.pattern) : other.reach text < lexeme.length := by
  refine Nat.lt_of_le_of_ne (h.reach_le other) fun heq => hother ?_
  have hmem := (OperandClass.measures_pattern other).sound text (by have := h.pos; omega)
  rwa [heq, ← List.prefix_iff_eq_take.mp h.head] at hmem

/-- Where any class has a lexeme, one of them is the best. -/
theorem exists_best (hmem : lexeme ∈ cls.pattern) (hhead : lexeme <+: text) :
    ∃ cls lexeme, Best text cls lexeme := by
  obtain ⟨longest, -, hmax⟩ := Finset.exists_max_image OperandClass.all.toFinset
    (fun cls => cls.reach text) ⟨cls, List.mem_toFinset.mpr (mem_all cls)⟩
  have hreach (other : OperandClass) {more : List Char} (hmore : more ∈ other.pattern)
      (hmoreHead : more <+: text) : more.length ≤ other.reach text := by
    obtain ⟨rest, rfl⟩ := hmoreHead
    exact (OperandClass.measures_pattern other).complete more hmore rest
  have hle (other : OperandClass) : other.reach text ≤ longest.reach text :=
    hmax other (List.mem_toFinset.mpr (mem_all other))
  have hpos : 0 < longest.reach text := by
    have := List.length_pos_iff.mpr fun hnil => cls.nil_not_mem_pattern (hnil ▸ hmem)
    have := hreach cls hmem hhead
    have := hle cls
    omega
  have hlength : (text.take (longest.reach text)).length = longest.reach text :=
    List.length_take_of_le (longest.reach_le_length text)
  -- Of the classes that reach that far, the first.
  obtain ⟨found, hfound⟩ : ∃ found, OperandClass.all.find?
      (fun cls => decide (cls.reach text = longest.reach text)) = some found :=
    Option.isSome_iff_exists.mp
      (List.find?_isSome.mpr ⟨longest, mem_all longest, decide_eq_true rfl⟩)
  obtain ⟨heq, before, after, hall, hfirst⟩ := List.find?_eq_some_iff_append.mp hfound
  have heq : found.reach text = longest.reach text := of_decide_eq_true heq
  refine ⟨found, text.take (longest.reach text), ?_, List.take_prefix _ text, ?_, before, after,
    hall, ?_⟩
  · rw [← heq]
    exact (OperandClass.measures_pattern found).sound text (by omega)
  · intro other more hmore hmoreHead
    rw [hlength]
    exact Nat.le_trans (hreach other hmore hmoreHead) (hle other)
  · intro other hother hmem
    have hfar := hreach other hmem (List.take_prefix _ text)
    rw [hlength] at hfar
    have hne := hfirst other hother
    simp only [Bool.not_eq_eq_eq_not, Bool.not_true, decide_eq_false_iff_not] at hne
    exact hne (Nat.le_antisymm (hle other) hfar)

/-! ## Paths and slashes -/

/-- Nothing but a name or a path begins with two dots. -/
theorem reach_of_dots (rest : List Char) (hident : cls ≠ .ident) (hpath : cls ≠ .path) :
    cls.reach ('.' :: '.' :: rest) = 0 := by
  have zero : cls.length ('.' :: '.' :: rest) = 0 := by
    have hmem := mem_all cls
    rw [OperandClass.all_eq, List.append_assoc, List.append_assoc, List.mem_append] at hmem
    rcases hmem with hkey | hmem
    · obtain ⟨keyword, hk, hlength⟩ := length_keywords cls hkey
      rw [hlength]
      exact symbolLength_of_head (keyword_head keyword hk) rfl _
    · refine length_of_mark rfl (fun _ => rfl) cls ?_ hpath
      simpa [hident] using hmem
  cases cls with
  | path => exact absurd rfl hpath
  | symbol => exact zero
  | _ => exact zero

/-- A name is longer than the marks before it. -/
theorem marks_lt_identLength (h : 0 < identLength text) :
    (lookupMarks text).2 < identLength text := by
  rw [identLength_eq] at h ⊢
  split at h
  case isTrue => cases h
  case isFalse hne =>
    rw [if_neg hne]
    omega

theorem ascents_of_slash {rest : List Char}
    (h : suffixLength ['/'] (rest.drop (3 * furtherParents rest)) ≠ 0) :
    furtherParents rest + 1 ≤ ascents ('.' :: '.' :: rest) := by
  fun_induction furtherParents rest with
  | case1 rest ih =>
    rw [show 3 * (1 + furtherParents rest) = 3 * furtherParents rest + 3 by omega] at h
    have hle : furtherParents rest + 1 ≤ ascents ('.' :: '.' :: rest) := ih h
    show 1 + furtherParents rest + 1 ≤ 1 + ascents ('.' :: '.' :: rest)
    omega
  | case2 rest =>
    rw [Nat.mul_zero, List.drop_zero] at h
    cases rest with
    | nil => exact absurd rfl h
    | cons c rest =>
      by_cases hc : c = '/'
      · subst hc
        exact Nat.le_add_right 1 _
      · exact absurd (if_neg (by simp [hc])) h

theorem marks_of_dots (rest : List Char) :
    (lookupMarks ('.' :: '.' :: rest)).2 = 3 * ascents ('.' :: '.' :: rest) := by
  unfold lookupMarks
  split
  case h_1 heq | h_2 heq | h_3 heq => simp at heq
  case h_4 =>
    split
    case h_1 hzero => rw [hzero]
    case h_2 => rfl

/-- A path with a slash behind it is made of marks. -/
theorem pathLength_le_marks (h : pathLength text ≠ pathReach text) :
    (∃ rest, text = '.' :: '.' :: rest) ∧ pathLength text ≤ (lookupMarks text).2 := by
  have hlength := pathLength_eq text
  split at hlength
  case isFalse => exact absurd hlength h
  case isTrue hdots =>
    obtain ⟨rest, rfl⟩ := hdots
    refine ⟨⟨rest, rfl⟩, ?_⟩
    have hreach : pathReach ('.' :: '.' :: rest) = 2 + 3 * furtherParents rest := rfl
    change pathLength ('.' :: '.' :: rest) = pathReach ('.' :: '.' :: rest) +
      suffixLength ['/'] (('.' :: '.' :: rest).drop (pathReach ('.' :: '.' :: rest))) at hlength
    change pathLength ('.' :: '.' :: rest) ≠ pathReach ('.' :: '.' :: rest) at h
    change pathLength ('.' :: '.' :: rest) ≤ (lookupMarks ('.' :: '.' :: rest)).2
    rw [hreach, Nat.add_comm 2, List.drop_succ_cons, List.drop_succ_cons] at hlength
    have hle := suffixLength_le ['/'] (rest.drop (3 * furtherParents rest))
    have hascents := @ascents_of_slash rest (by omega)
    rw [marks_of_dots]
    omega

/-- The slash that a path takes along does not make it as long as a longer lexeme of another
class. -/
theorem Best.pathLength_lt (h : Best text cls lexeme) (hpath : cls ≠ .path) :
    pathLength text = pathReach text ∨ pathLength text < lexeme.length := by
  by_cases heq : pathLength text = pathReach text
  · exact .inl heq
  · obtain ⟨⟨rest, rfl⟩, hle⟩ := pathLength_le_marks heq
    have hreach := h.reach_eq
    have hpos := h.pos
    have hident : cls = .ident := by
      by_contra hident
      rw [reach_of_dots rest hident hpath] at hreach
      omega
    subst hident
    have hlength : identLength ('.' :: '.' :: rest) = lexeme.length := hreach
    have := @marks_lt_identLength ('.' :: '.' :: rest) (by omega)
    exact .inr (by omega)

/-! ## The class that is found -/

/-- How much further than its pattern a path reaches. -/
def overread (cls : OperandClass) (lexeme text : List Char) : Nat :=
  if cls = .path ∧ "..".toList <+: lexeme ∧ lexeme ++ ['/'] <+: text then 1 else 0

theorem isSome_regexExtent?_iff : (regexExtent? text).isSome ↔ "~/".toList <+: text := by
  unfold regexExtent?
  split
  case h_1 rest => exact iff_of_true rfl ⟨rest, rfl⟩
  case h_2 hne => exact iff_of_false Bool.false_ne_true fun ⟨rest, heq⟩ => hne rest heq.symm

theorem Best.pathLength_eq (h : Best text .path lexeme) :
    pathLength text = lexeme.length + overread .path lexeme text := by
  have hreach : pathReach text = lexeme.length := h.reach_eq
  obtain ⟨rest, rfl⟩ := h.head
  have hdots : "..".toList <+: lexeme ++ rest ↔ "..".toList <+: lexeme := by
    refine ⟨fun hdots => ?_, fun hdots => hdots.trans (List.prefix_append _ _)⟩
    refine List.prefix_of_prefix_length_le hdots (List.prefix_append lexeme rest) ?_
    obtain ⟨more, heq⟩ := hdots
    rw [← hreach, ← heq]
    exact Nat.le_add_right 2 _
  have hslash : suffixLength ['/'] rest = if lexeme ++ ['/'] <+: lexeme ++ rest then 1 else 0 := by
    simp only [List.prefix_append_right_inj]
    cases rest with
    | nil => rfl
    | cons c rest => simp [suffixLength, eq_comm]
  rw [Token.pathLength_eq, hreach, List.drop_left, hslash, overread]
  simp only [hdots, true_and]
  split
  · split
    · rw [if_pos ⟨‹_›, ‹_›⟩]
    · rw [if_neg fun hc => absurd hc.2 ‹_›]
  · rw [if_neg fun hc => absurd hc.1 ‹_›]

theorem Best.length_eq (h : Best text cls lexeme)
    (htilde : cls = .symbol → ¬ "~/".toList <+: text) :
    cls.length text = lexeme.length + overread cls lexeme text := by
  have hreach := h.reach_eq
  by_cases hpath : cls = .path
  · subst hpath
    exact h.pathLength_eq
  · have hover : overread cls lexeme text = 0 := if_neg fun hc => hpath hc.1
    rw [hover, Nat.add_zero, ← hreach]
    cases cls with
    | path => exact absurd rfl hpath
    | symbol =>
      exact if_neg fun hregex => htilde rfl (isSome_regexExtent?_iff.mp hregex)
    | _ => rfl

theorem Best.longestClass? (h : Best text cls lexeme)
    (htilde : cls = .symbol → ¬ "~/".toList <+: text) :
    Token.longestClass? text = some (cls, lexeme.length + overread cls lexeme text) := by
  obtain ⟨before, after, hall, hfirst⟩ := h.first
  have hlength := h.length_eq htilde
  have hpos := h.pos
  refine longestClass?_eq before after hall (by omega) hlength (fun other hother => ?_)
    fun other hother => ?_
  · have hlt := h.reach_lt (hfirst other hother)
    by_cases hpath : other = .path
    · subst hpath
      have hcls : cls ≠ .path := by
        rintro rfl
        exact hfirst _ hother h.mem
      have hpathLength := h.pathLength_lt hcls
      simp only [OperandClass.length, OperandClass.reach] at hlt ⊢
      omega
    · have := OperandClass.length_le_reach hpath text
      omega
  · have hle := h.reach_le other
    by_cases hpath : other = .path
    · subst hpath
      by_cases hcls : cls = .path
      · rw [← hlength, hcls]
      · have hpathLength := h.pathLength_lt hcls
        simp only [OperandClass.length, OperandClass.reach] at hle ⊢
        omega
    · have := OperandClass.length_le_reach hpath text
      omega

/-! ## Where no class is found -/

theorem longestClass?_eq_none (h : ∀ cls : OperandClass, cls.length text = 0) :
    longestClass? text = none := by
  cases hfound : longestClass? text with
  | none => rfl
  | some found =>
    have hlength := longestClass?_length hfound
    have hpos := longestClass?_pos hfound
    have := h found.1
    omega

/-- Where no pattern has a lexeme, no class is found. -/
theorem longestClass?_of_no_pattern
    (h : ∀ (cls : OperandClass) (lexeme : List Char), lexeme ∈ cls.pattern → ¬ lexeme <+: text) :
    longestClass? text = none := by
  have hreach (cls : OperandClass) : cls.reach text = 0 := by
    rcases Nat.eq_zero_or_pos (cls.reach text) with hzero | hpos
    · exact hzero
    · exact absurd (List.take_prefix _ text)
        (h cls _ ((OperandClass.measures_pattern cls).sound text hpos))
  refine longestClass?_eq_none fun cls => ?_
  by_cases hpath : cls = .path
  · subst hpath
    have hzero : pathReach text = 0 := hreach .path
    by_contra hne
    obtain ⟨⟨rest, rfl⟩, -⟩ := @pathLength_le_marks text fun heq => hne (heq.trans hzero)
    have hreach : 2 + 3 * furtherParents rest = 0 := hzero
    omega
  · have := OperandClass.length_le_reach hpath text
    have := hreach cls
    omega

/-- A tilde before a slash is no operator, and nothing else where it opens no pattern literal. -/
theorem Best.longestClass?_tilde (h : Best text .symbol lexeme) (htilde : "~/".toList <+: text) :
    Token.longestClass? text = none := by
  obtain ⟨rest, rfl⟩ := htilde
  have hopens : Opens ("~/".toList ++ rest) .regex := .regex rest
  refine longestClass?_eq_none fun cls => ?_
  by_cases hcls : cls = .regex
  · subst hcls
    -- The lexeme of a pattern literal would be longer than a symbol.
    have hle : OperandClass.regex.length ("~/".toList ++ rest) ≤ lexeme.length := h.reach_le .regex
    have hsymbol : lexeme.length = 1 := by
      obtain ⟨symbol, hmem, rfl⟩ := h.mem
      have all : ∀ symbol ∈ OperandClass.symbols, symbol.toList.length = 1 := by decide
      exact all symbol hmem
    have hlength : OperandClass.regex.length ("~/".toList ++ rest) =
        closedLength (some ((quotedExtent '/' false rest).after 2)) := rfl
    rw [hlength] at hle ⊢
    rcases Nat.eq_zero_or_pos (closedLength (some ((quotedExtent '/' false rest).after 2))) with
      hzero | hpos
    · exact hzero
    · have := (closedLength_after 2 hpos).2
      omega
  · exact hopens.length_eq_zero hcls

/-! ## The token -/

/-- The token of that kind, or the fault, at its place. -/
def tokenAt (kind : Except LexFault TokenKind) (span : Span) : Except LexError Token :=
  match kind with
  | .ok kind => .ok ⟨kind, span⟩
  | .error fault => .error ⟨fault, span⟩

theorem take_best (h : lexeme <+: text) : text.take (lexeme.length + overread cls lexeme text) =
    lexeme ++ List.replicate (overread cls lexeme text) '/' := by
  obtain ⟨rest, rfl⟩ := h
  rw [List.take_length_add_append]
  unfold overread
  split
  case isTrue hc =>
    obtain ⟨-, -, hslash⟩ := hc
    rw [List.prefix_append_right_inj] at hslash
    obtain ⟨more, rfl⟩ := hslash
    rfl
  case isFalse => rfl

/-- The slash changes nothing but the place. -/
theorem token_overread (hmem : lexeme ∈ cls.pattern) :
    cls.token (lexeme ++ List.replicate (overread cls lexeme text) '/') = cls.token lexeme := by
  unfold overread
  split
  case isFalse => rw [List.replicate_zero, List.append_nil]
  case isTrue hc =>
    obtain ⟨rfl, hdots, -⟩ := hc
    rcases hmem with hdot | hpath
    · obtain rfl := mem_word.mp hdot
      exact absurd hdots (by decide)
    · obtain ⟨_, hword, _, hstar, rfl⟩ := Language.mem_mul.mp hpath
      obtain rfl := mem_word.mp hword
      obtain ⟨levels, rfl⟩ := mem_star_word.mp hstar
      have hlevels (rest : List Char) :
          pathLevels ("..".toList ++ (List.replicate levels "/..".toList).flatten ++ rest) =
            1 + (levels + furtherParents rest) := by
        rw [← furtherParents_append, List.append_assoc]
        rfl
      have hnone := hlevels []
      rw [List.append_nil] at hnone
      rw [OperandClass.token, OperandClass.token, hnone, hlevels]
      rfl

variable {before gap tail : List Char} {n : Nat}

/-- The token where a class is found behind a gap. -/
theorem at?_of_longestClass? (hgap : Gap .operand tail.isEmpty gap) (htail : Clear tail)
    (hclass : longestClass? tail = some (cls, n)) :
    at? .operand (before ++ (gap ++ tail)) (byteLength before) =
      tokenAt (cls.token (tail.take n)) (Span.ofRange (byteLength before + byteLength gap)
        (byteLength before + byteLength gap + byteLength (tail.take n))) := by
  have hne : tail ≠ [] := by
    rintro rfl
    cases hclass
  rw [at?_eq, next_of_clear (by simp) hgap htail, read]
  split
  case h_1 hnil => exact absurd hnil hne
  case h_2 =>
    simp only [hclass, take, spanOf, Cursor.advance, tokenAt]
    cases cls.token (tail.take n) <;> rfl

/-- The error where none is found, unless the text is at its end. -/
theorem at?_of_no_class (hgap : Gap .operand tail.isEmpty gap) (htail : Clear tail)
    (hne : tail ≠ []) (hclass : longestClass? tail = none) :
    ∃ first span, tail.head? = some first ∧
      at? .operand (before ++ (gap ++ tail)) (byteLength before) =
        .error ⟨faultAt .operand first, span⟩ := by
  obtain ⟨first, more, rfl⟩ := List.exists_cons_of_ne_nil hne
  rw [at?_eq, next_of_clear (by simp) hgap htail, read]
  simp only [hclass]
  exact ⟨first, _, rfl, rfl⟩

/-- The best lexeme is read, with the slash that it may take along. -/
theorem at?_of_best (hgap : Gap .operand tail.isEmpty gap) (htail : Clear tail)
    (h : Best tail cls lexeme) (htilde : cls = .symbol → ¬ "~/".toList <+: tail) :
    at? .operand (before ++ (gap ++ tail)) (byteLength before) =
      tokenAt (cls.token lexeme) (Span.ofRange (byteLength before + byteLength gap)
        (byteLength before + byteLength gap + byteLength lexeme + overread cls lexeme tail)) := by
  have hslashes (count : Nat) : byteLength (List.replicate count '/') = count := by
    induction count with
    | zero => rfl
    | succ count ih =>
      rw [List.replicate_succ, byteLength, ih, Nat.add_comm]
      rfl
  rw [at?_of_longestClass? hgap htail (h.longestClass? htilde), take_best h.head,
    token_overread h.mem, byteLength_append, hslashes, ← Nat.add_assoc]

end TagExpr.Token
