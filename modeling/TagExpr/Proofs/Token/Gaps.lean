import TagExpr.Proofs.Token.Cuts
import TagExpr.Proofs.Token.Extent

/-!
# Gaps between tokens

Between two tokens a text may be cut and go on otherwise, where no lexeme reaches past the cut
(`Keeps`), for instance with filler. What stands before the cut is read as before: the token that is
found is the same, because no class has a longer lexeme now. What stands behind the filler is read
as if the filler were not there.
-/

namespace TagExpr.Token

variable {p q x t : List Char}

/-! ## Where a text may be cut -/

theorem cuts_operators : Cuts (symbolLength operatorSymbols) := cuts_symbols (by decide)

/-- The lengths by which lexemes are found, but for those of quoted literals. -/
inductive IsLength : (List Char → Nat) → Prop
  | plain {cls : OperandClass} : cls.isPlain → IsLength fun text => cls.length text
  | symbols : IsLength (symbolLength OperandClass.symbols)
  | operators : IsLength (symbolLength operatorSymbols)
  | callable : IsLength callableLength

theorem IsLength.cuts {f : List Char → Nat} (h : IsLength f) : Cuts f := by
  cases h with
  | plain hplain => exact cuts_plain hplain
  | symbols => exact cuts_symbols (by decide)
  | operators => exact cuts_operators
  | callable => exact cuts_callable

/-- When `p ++ x` goes on as `p ++ t` instead, no lexeme gets longer that ended before the cut, and
no comment or pattern literal is opened. -/
structure Keeps (p x t : List Char) : Prop where
  length : ∀ f, IsLength f → f (p ++ x) ≤ p.length → f (p ++ t) = f (p ++ x)
  head : ∀ c ∈ t.head?, c ≠ '/' ∧ c ≠ '*'

theorem Stops.keeps (ht : Stops t) (p x : List Char) : Keeps p x t := by
  refine ⟨fun f hf => (hf.cuts p x t ht).eq, fun c hc => ?_⟩
  obtain ⟨d, rest, rfl, hd⟩ := ht
  cases hc
  exact separator_cases (P := fun c => c ≠ '/' ∧ c ≠ '*') (by decide) _ hd

/-! ## Quoted literals -/

theorem quotedExtent_plain {closer c : Char} {multiline : Bool} (hc : c ≠ '\\')
    (rest : List Char) : quotedExtent closer multiline (c :: rest) =
      if c = closer then ⟨1, true⟩
      else if c = '\n' && !multiline then ⟨0, false⟩
      else (quotedExtent closer multiline rest).after 1 := by
  rw [quotedExtent]
  exact fun heq => hc heq

/-- The extent is that of a literal that is closed by its last character. -/
theorem after_eq {e : Extent} {count n m : Nat} (h : m = count + n) :
    e.after count = ⟨m, true⟩ ↔ e = ⟨n, true⟩ := by
  obtain ⟨length, closed⟩ := e
  simp only [Extent.after, Extent.mk.injEq, h, Nat.add_left_cancel_iff]

theorem quotedExtent_through {closer : Char} {body : List Char} (hcloser : closer ∉ body)
    (hescape : '\\' ∉ body) (rest : List Char) :
    quotedExtent closer true (body ++ rest) =
      (quotedExtent closer true rest).after body.length := by
  induction body with
  | nil => simp [Extent.after]
  | cons c body ih =>
    rw [List.mem_cons, not_or] at hcloser hescape
    rw [List.cons_append, quotedExtent_plain (Ne.symm hescape.1), if_neg (Ne.symm hcloser.1),
      ih hcloser.2 hescape.2]
    simp only [Bool.not_true, Bool.and_false, Bool.false_eq_true, if_false, Extent.after,
      List.length_cons]
    rw [← Nat.add_assoc, Nat.add_comm 1]

/-- A closed literal is made of its own characters. -/
theorem quotedExtent_take {closer : Char} {multiline : Bool} {text : List Char}
    (h : (quotedExtent closer multiline text).closed) (t : List Char) :
    quotedExtent closer multiline (text.take (quotedExtent closer multiline text).length ++ t) =
      quotedExtent closer multiline text := by
  fun_induction quotedExtent closer multiline text with
  | case1 | case2 | case3 | case6 => cases h
  | case4 c rest hc ih =>
    have take :
        ('\\' :: c :: rest).take ((quotedExtent closer multiline rest).after 2).length ++ t =
        '\\' :: c :: (rest.take (quotedExtent closer multiline rest).length ++ t) := by
      rw [Extent.after, Nat.add_comm]
      rfl
    rw [take]
    simp only [quotedExtent, if_neg hc, ih h]
  | case5 rest hc =>
    exact (quotedExtent_plain hc _).trans (if_pos rfl)
  | case7 c rest hescape hcloser hline ih =>
    have take : (c :: rest).take ((quotedExtent closer multiline rest).after 1).length ++ t =
        c :: (rest.take (quotedExtent closer multiline rest).length ++ t) := by
      rw [Extent.after, Nat.add_comm]
      rfl
    rw [take, quotedExtent_plain hescape, if_neg hcloser, if_neg hline, ih h]

theorem quotedExtent_cut {closer : Char} {multiline : Bool}
    (h : (quotedExtent closer multiline (p ++ x)).closed)
    (hle : (quotedExtent closer multiline (p ++ x)).length ≤ p.length) (t : List Char) :
    quotedExtent closer multiline (p ++ t) = quotedExtent closer multiline (p ++ x) := by
  have split : p ++ t = (p ++ x).take (quotedExtent closer multiline (p ++ x)).length ++
      (p.drop (quotedExtent closer multiline (p ++ x)).length ++ t) := by
    rw [List.take_append_of_le_length hle, ← List.append_assoc, List.take_append_drop]
  rw [split, quotedExtent_take h]

/-! ## The longest lexeme -/

/-- The length that has been found so far. -/
def foundLength (best : Option (OperandClass × Nat)) : Nat := (best.map (·.2)).getD 0

theorem foundLength_better (text : List Char) (best : Option (OperandClass × Nat))
    (cls : OperandClass) :
    foundLength (better text best cls) = max (foundLength best) (cls.length text) := by
  unfold better
  split
  case h_1 =>
    split <;> simp only [foundLength, Option.map_some, Option.getD_some] <;> omega
  case h_2 =>
    split <;> simp only [foundLength, Option.map_some, Option.map_none, Option.getD_some,
      Option.getD_none] <;> omega

theorem le_foundLength {text : List Char} {classes : List OperandClass}
    {best : Option (OperandClass × Nat)} {n : Nat}
    (h : n ≤ foundLength best ∨ ∃ cls ∈ classes, n ≤ cls.length text) :
    n ≤ foundLength (classes.foldl (better text) best) := by
  induction classes generalizing best with
  | nil => simpa using h
  | cons cls classes ih =>
    refine ih ?_
    rw [foundLength_better]
    rcases h with h | ⟨other, hmem, h⟩
    · exact .inl (by omega)
    · rcases List.mem_cons.mp hmem with rfl | hmem
      · exact .inl (by omega)
      · exact .inr ⟨other, hmem, h⟩

theorem mem_all (cls : OperandClass) : cls ∈ OperandClass.all := by
  cases cls with
  | bool value => cases value <;> decide
  | _ => decide

/-- No class has a longer lexeme than the one that is found. -/
theorem longestClass?_max {text : List Char} {cls : OperandClass} {n : Nat}
    (h : longestClass? text = some (cls, n)) (other : OperandClass) : other.length text ≤ n := by
  have le := @le_foundLength text _ none _
    (.inr ⟨other, mem_all other, Nat.le_refl (other.length text)⟩)
  rwa [← longestClass?_fold, h] at le

theorem length_of_opening {c : Char} (hc : c = '"' ∨ c = '\'' ∨ c = '~') (rest : List Char)
    {cls : OperandClass} (hcls : cls.isPlain) : cls.length (c :: rest) = 0 := by
  cases cls with
  | doubleQuoted | singleQuoted | regex | symbol => cases hcls
  | bool value => rcases hc with rfl | rfl | rfl <;> cases value <;> rfl
  | _ => rcases hc with rfl | rfl | rfl <;> rfl

theorem longestClass?_congr {text text' : List Char}
    (h : ∀ cls : OperandClass, cls.length text' = cls.length text) :
    longestClass? text' = longestClass? text := by
  simp only [longestClass?_fold]
  congr 1
  funext best cls
  simp only [better, h]

/-- The text begins with the opener of a quoted literal. -/
inductive Opens : List Char → OperandClass → Prop
  | double (rest : List Char) : Opens ('"' :: rest) .doubleQuoted
  | single (rest : List Char) : Opens ('\'' :: rest) .singleQuoted
  | regex (rest : List Char) : Opens ('~' :: '/' :: rest) .regex

variable {cls found : OperandClass} {n : Nat}

theorem symbol_of_opening {c : Char} (hc : c = '"' ∨ c = '\'') (rest : List Char) :
    OperandClass.symbol.length (c :: rest) = 0 := by
  rcases hc with rfl | rfl
  · exact symbolLength_of_head (p := (· == '"')) (by decide) rfl rest
  · exact symbolLength_of_head (p := (· == '\'')) (by decide) rfl rest

/-- Nothing else begins with the opener of a quoted literal. -/
theorem Opens.length_eq_zero {text : List Char} (h : Opens text cls) (hne : found ≠ cls) :
    found.length text = 0 := by
  by_cases hplain : found.isPlain
  · cases h with
    | double rest => exact length_of_opening (.inl rfl) rest hplain
    | single rest => exact length_of_opening (.inr (.inl rfl)) rest hplain
    | regex rest => exact length_of_opening (.inr (.inr rfl)) _ hplain
  · cases h with
    | double rest =>
      cases found with
      | symbol => exact symbol_of_opening (.inl rfl) rest
      | doubleQuoted => exact absurd rfl hne
      | singleQuoted | regex => rfl
      | _ => exact absurd rfl hplain
    | single rest =>
      cases found with
      | symbol => exact symbol_of_opening (.inr rfl) rest
      | singleQuoted => exact absurd rfl hne
      | doubleQuoted | regex => rfl
      | _ => exact absurd rfl hplain
    | regex rest =>
      cases found with
      | regex => exact absurd rfl hne
      | symbol | doubleQuoted | singleQuoted => rfl
      | _ => exact absurd rfl hplain

theorem closedLength_after {e : Extent} (count : Nat)
    (h : 0 < closedLength (some (e.after count))) :
    e.closed ∧ closedLength (some (e.after count)) = count + e.length := by
  obtain ⟨length, closed⟩ := e
  cases closed with
  | true => exact ⟨rfl, rfl⟩
  | false => cases h

theorem closedLength_cut {closer : Char} {multiline : Bool} {count : Nat}
    (hpos : 0 < closedLength (some ((quotedExtent closer multiline (p ++ x)).after count)))
    (hle : closedLength (some ((quotedExtent closer multiline (p ++ x)).after count)) ≤
      count + p.length) (t : List Char) :
    closedLength (some ((quotedExtent closer multiline (p ++ t)).after count)) =
      closedLength (some ((quotedExtent closer multiline (p ++ x)).after count)) := by
  obtain ⟨hclosed, hlen⟩ := closedLength_after count hpos
  rw [quotedExtent_cut hclosed (by omega)]

/-- A quoted literal that is closed before the cut stays as it is. -/
theorem Opens.cut (h : Opens (p ++ x) cls) (hpos : 0 < cls.length (p ++ x))
    (hle : cls.length (p ++ x) ≤ p.length) (t : List Char) :
    Opens (p ++ t) cls ∧ cls.length (p ++ t) = cls.length (p ++ x) := by
  have string (quote : Char) (rest : List Char) :
      closedLength (stringExtent? quote (quote :: rest)) =
      closedLength (some ((quotedExtent quote true rest).after 1)) := by
    rw [stringExtent?, if_pos rfl]
  cases p with
  | nil =>
    simp only [List.length_nil] at hle
    omega
  | cons c p =>
    cases p with
    | nil =>
      generalize hy : [c] ++ x = text at h
      cases h with
      | double rest | single rest =>
        obtain ⟨rfl, rfl⟩ := List.cons.inj hy
        simp only [OperandClass.length, List.singleton_append, string] at hpos hle ⊢
        exact ⟨by constructor, closedLength_cut (p := []) hpos hle t⟩
      | regex rest =>
        obtain ⟨rfl, hx⟩ := List.cons.inj hy
        have hx : x = '/' :: rest := hx
        subst hx
        obtain ⟨hclosed, hlen⟩ := closedLength_after 2 hpos
        simp only [OperandClass.length, List.singleton_append, regexExtent?, hlen,
          List.length_singleton] at hle
        omega
    | cons d p =>
      generalize hy : c :: d :: p ++ x = text at h
      cases h with
      | double rest | single rest =>
        obtain ⟨rfl, rfl⟩ := List.cons.inj hy
        simp only [OperandClass.length, List.cons_append, string] at hpos hle ⊢
        refine ⟨by constructor, closedLength_cut (p := d :: p) hpos ?_ t⟩
        rw [List.length_cons, Nat.add_comm] at hle
        exact hle
      | regex rest =>
        obtain ⟨rfl, htail⟩ := List.cons.inj hy
        obtain ⟨rfl, rfl⟩ := List.cons.inj htail
        simp only [OperandClass.length, List.cons_append, regexExtent?] at hpos hle ⊢
        refine ⟨by constructor, closedLength_cut hpos ?_ t⟩
        simp only [List.length_cons] at hle
        omega

theorem opens_of_cut (hp : p ≠ []) (ht : ∀ c ∈ t.head?, c ≠ '/' ∧ c ≠ '*')
    (h : Opens (p ++ t) cls) :
    Opens (p ++ x) cls := by
  match p with
  | [] => exact absurd rfl hp
  | [c] =>
    generalize hy : [c] ++ t = text at h
    cases h with
    | double | single =>
      obtain ⟨rfl, -⟩ := List.cons.inj hy
      constructor
    | regex rest =>
      obtain ⟨-, hy⟩ := List.cons.inj hy
      have hy : t = '/' :: rest := hy
      exact absurd rfl (ht '/' (by rw [hy]; rfl)).1
  | c :: d :: p =>
    generalize hy : c :: d :: p ++ t = text at h
    cases h with
    | double | single =>
      obtain ⟨rfl, -⟩ := List.cons.inj hy
      constructor
    | regex =>
      obtain ⟨rfl, htail⟩ := List.cons.inj hy
      obtain ⟨rfl, -⟩ := List.cons.inj htail
      constructor

theorem regexExtent?_of_not_opens {text : List Char} (h : ¬ Opens text .regex) :
    regexExtent? text = none := by
  unfold regexExtent?
  split
  case h_1 rest => exact absurd (.regex rest) h
  case h_2 => rfl

theorem length_eq_zero_of_not_opens {text : List Char} (hq : found = .doubleQuoted ∨
    found = .singleQuoted ∨ found = .regex) (h : ¬ Opens text found) : found.length text = 0 := by
  rcases hq with rfl | rfl | rfl
  · cases text with
    | nil => rfl
    | cons c rest =>
      have hc : c ≠ '"' := fun hc => h (hc ▸ .double rest)
      simp [OperandClass.length, stringExtent?, hc, closedLength]
  · cases text with
    | nil => rfl
    | cons c rest =>
      have hc : c ≠ '\'' := fun hc => h (hc ▸ .single rest)
      simp [OperandClass.length, stringExtent?, hc, closedLength]
  · simp only [OperandClass.length, regexExtent?_of_not_opens h, closedLength]

theorem symbol_eq {text : List Char} (h : ¬ Opens text .regex) :
    OperandClass.symbol.length text = symbolLength OperandClass.symbols text := by
  simp only [OperandClass.length, regexExtent?_of_not_opens h, Option.isSome_none,
    Bool.false_eq_true, if_false]

/-- The lexeme before the cut is found in what stands before the cut. -/
theorem longestClass?_cut (hkeeps : Keeps p x t) (h : longestClass? (p ++ x) = some (cls, n))
    (hn : n ≤ p.length) : longestClass? (p ++ t) = some (cls, n) := by
  have hpos := longestClass?_pos h
  have hlen := longestClass?_length h
  have hp : p ≠ [] := by
    rintro rfl
    simp only [List.length_nil] at hn
    omega
  rw [← h]
  refine longestClass?_congr fun other => ?_
  have hmax := Nat.le_trans (longestClass?_max h other) hn
  by_cases hopens : ∃ quoted, Opens (p ++ x) quoted
  · obtain ⟨quoted, hopens⟩ := hopens
    -- It is the quoted literal that has been found.
    have hquoted : cls = quoted := by
      apply Classical.byContradiction
      intro hne
      have := hopens.length_eq_zero hne
      omega
    subst hquoted
    obtain ⟨hopens', heq⟩ := hopens.cut (hlen ▸ hpos) (hlen ▸ hn) t
    by_cases hother : other = cls
    · rw [hother, heq]
    · rw [hopens.length_eq_zero hother, hopens'.length_eq_zero hother]
  · have none (quoted : OperandClass) : ¬ Opens (p ++ t) quoted := fun hq =>
      hopens ⟨quoted, opens_of_cut hp hkeeps.head hq⟩
    have none' (quoted : OperandClass) : ¬ Opens (p ++ x) quoted := fun hq => hopens ⟨quoted, hq⟩
    by_cases hplain : other.isPlain
    · exact hkeeps.length _ (.plain hplain) hmax
    · cases other with
      | doubleQuoted | singleQuoted | regex =>
        rw [length_eq_zero_of_not_opens (by simp) (none _),
          length_eq_zero_of_not_opens (by simp) (none' _)]
      | symbol =>
        rw [symbol_eq (none' _)] at hmax ⊢
        rw [symbol_eq (none _)]
        exact hkeeps.length _ .symbols hmax
      | _ => exact absurd rfl hplain

/-! ## One token -/

theorem length_le (cls : OperandClass) (text : List Char) : cls.length text ≤ text.length := by
  by_cases hplain : cls.isPlain
  · exact (cuts_plain hplain).le_length text
  · have string (quote : Char) : closedLength (stringExtent? quote text) ≤ text.length := by
      rcases Nat.eq_zero_or_pos (closedLength (stringExtent? quote text)) with hzero | hpos
      · omega
      · obtain ⟨body, rest, htext, hlen⟩ := closedLength_string hpos
        rw [hlen, htext]
        simp only [List.cons_append, List.length_cons, List.length_append]
        omega
    cases cls with
    | doubleQuoted => exact string '"'
    | singleQuoted => exact string '\''
    | regex =>
      simp only [OperandClass.length]
      unfold regexExtent?
      split
      case h_1 rest =>
        rcases Nat.eq_zero_or_pos (closedLength (some ((quotedExtent '/' false rest).after 2))) with
          hzero | hpos
        · omega
        · obtain ⟨hclosed, hlen⟩ := closedLength_after 2 hpos
          obtain ⟨body, after, heq, hbody⟩ := quotedExtent_split hclosed
          rw [hlen, hbody, heq]
          simp only [List.length_cons, List.length_append]
          omega
      case h_2 => exact Nat.zero_le _
    | symbol =>
      simp only [OperandClass.length]
      split
      · exact Nat.zero_le _
      · exact (cuts_symbols (by decide)).le_length text
    | _ => exact absurd rfl hplain

/-- What is left behind a lexeme that ends before the cut. -/
theorem drop_cut {count : Nat} (hle : count ≤ (p ++ x).length) (h : (p ++ x).drop count = q ++ x) :
    count ≤ p.length ∧ ∀ y, (p ++ y).drop count = q ++ y ∧ (p ++ y).take count = p.take count := by
  have hlen := congrArg List.length h
  simp only [List.length_drop, List.length_append] at hle hlen
  have hcount : count ≤ p.length := by omega
  rw [List.drop_append_of_le_length hcount] at h
  obtain rfl := List.append_cancel_right h
  exact ⟨hcount, fun y =>
    ⟨List.drop_append_of_le_length hcount, List.take_append_of_le_length hcount⟩⟩

/-- A token before the cut is read as before. -/
theorem read_cut {mode : LexMode} {offset offset' : Nat} {token : Token} {after : Cursor}
    (hkeeps : Keeps p x t) (h : read mode ⟨offset, p ++ x⟩ = .ok (token, after))
    (hk : token.kind ≠ .finish) (hafter : after.rest = q ++ x) :
    ∃ span after', read mode ⟨offset', p ++ t⟩ = .ok (⟨token.kind, span⟩, after') ∧
      after'.rest = q ++ t := by
  have nonempty {count : Nat} (hpos : 0 < count) (hle : count ≤ p.length) (y : List Char) :
      ∃ first rest, p ++ y = first :: rest := by
    cases p with
    | nil =>
      simp only [List.length_nil] at hle
      omega
    | cons first rest => exact ⟨first, rest ++ y, rfl⟩
  unfold read at h
  split at h
  case h_1 => cases h; exact absurd rfl hk
  case h_2 first rest heq =>
    simp only at heq h
    cases mode with
    | operand =>
      simp only at h
      split at h
      case h_2 => cases h
      case h_1 cls count hclass =>
        obtain ⟨hkind, rfl⟩ := take_eq h
        have hpos := longestClass?_pos hclass
        have hbound := length_le cls (p ++ x)
        rw [← longestClass?_length hclass] at hbound
        obtain ⟨hle, hcut⟩ := drop_cut hbound hafter
        obtain ⟨d, more, hcons⟩ := nonempty hpos hle t
        unfold read
        simp only [hcons]
        rw [← hcons, longestClass?_cut hkeeps hclass hle]
        rw [(hcut x).2] at hkind
        simp only [(hcut t).2, hkind]
        exact ⟨_, _, rfl, (hcut t).1⟩
    | operator =>
      simp only at h
      split at h
      case h_1 => cases h
      case h_2 count hne =>
        obtain ⟨hkind, rfl⟩ := take_eq h
        obtain ⟨hle, hcut⟩ := drop_cut (cuts_operators.le_length (p ++ x)) hafter
        obtain ⟨d, more, hcons⟩ := nonempty (Nat.pos_of_ne_zero hne) hle t
        unfold read
        simp only [hcons]
        rw [← hcons, hkeeps.length _ .operators hle]
        split
        case h_1 hzero => exact absurd hzero hne
        case h_2 =>
          rw [(hcut x).2] at hkind
          simp only [(hcut t).2, hkind]
          exact ⟨_, _, rfl, (hcut t).1⟩
    | member =>
      simp only at h
      split at h
      case h_1 => cases h
      case h_2 count hne =>
        obtain ⟨hkind, rfl⟩ := take_eq h
        obtain ⟨hle, hcut⟩ := drop_cut (cuts_callable.le_length (p ++ x)) hafter
        obtain ⟨d, more, hcons⟩ := nonempty (Nat.pos_of_ne_zero hne) hle t
        unfold read
        simp only [hcons]
        rw [← hcons, hkeeps.length _ .callable hle]
        split
        case h_1 hzero => exact absurd hzero hne
        case h_2 =>
          rw [(hcut x).2] at hkind
          simp only [(hcut t).2, hkind]
          exact ⟨_, _, rfl, (hcut t).1⟩

/-! ## Filler -/

/-- In that mode the text is skipped, whatever follows it. -/
def Skips (mode : LexMode) (gap : List Char) : Prop :=
  ∀ offset rest, skip mode ⟨offset, gap ++ rest⟩ = skip mode ⟨offset + byteLength gap, rest⟩

/-- In that mode a token begins at once. -/
def StartsIn (mode : LexMode) (text : List Char) : Prop :=
  ∀ offset, skip mode ⟨offset, text⟩ = .ok ⟨offset, text⟩

/-- The text leads from a state of the skipping back to where no comment is open. -/
def Leaves (filler : Filler) (gap : List Char) : Prop :=
  ∀ offset rest, skipFiller filler offset (gap ++ rest) =
    skipFiller .outside (offset + byteLength gap) rest

theorem leaves_nil : Leaves .outside [] := fun _ _ => rfl

theorem Leaves.cons {filler filler' : Filler} {c : Char} {gap : List Char} (h : Leaves filler' gap)
    (hc : ∀ offset rest, skipFiller filler offset (c :: (gap ++ rest)) =
      skipFiller filler' (offset + c.utf8Size) (gap ++ rest)) : Leaves filler (c :: gap) := by
  intro offset rest
  rw [List.cons_append, hc, h, byteLength, Nat.add_assoc]

theorem Leaves.append {filler : Filler} {gap more : List Char} (h : Leaves filler gap)
    (hm : Leaves .outside more) : Leaves filler (gap ++ more) := by
  intro offset rest
  rw [List.append_assoc, h, hm, byteLength_append, Nat.add_assoc]

theorem skipFiller_separator {c : Char} (hc : Text.isSeparator c) (offset : Nat)
    (rest : List Char) :
    skipFiller .outside offset (c :: rest) = skipFiller .outside (offset + c.utf8Size) rest := by
  have hslash := separator_cases (P := (· ≠ '/')) (by decide) c hc
  rw [Text.utf8Size_of_isSeparator hc]
  rw [skipFiller]
  · exact if_pos hc
  · exact fun _ he => absurd he hslash
  · exact fun _ he => absurd he hslash

theorem leaves_separators {gap : List Char} (h : ∀ c ∈ gap, Text.isSeparator c) :
    Leaves .outside gap := by
  induction gap with
  | nil => exact leaves_nil
  | cons c gap ih =>
    exact (ih fun d hd => h d (List.mem_cons_of_mem c hd)).cons fun offset rest =>
      skipFiller_separator (h c (by simp)) offset _

theorem skipFiller_block {opened offset : Nat} {c : Char} {rest : List Char}
    (h : ∀ more, c :: rest ≠ '*' :: '/' :: more) :
    skipFiller (.block opened) offset (c :: rest) =
      skipFiller (.block opened) (offset + c.utf8Size) rest := by
  rw [skipFiller]
  intro more hc hrest
  exact h more (by rw [hc, hrest])

/-- The end of a block comment does not stand in its body. -/
theorem leaves_block {body : List Char} (h : ¬ "*/".toList <:+: body) (opened : Nat) :
    Leaves (.block opened) (body ++ ['*', '/']) := by
  induction body with
  | nil => exact fun offset rest => rfl
  | cons c body ih =>
    refine Leaves.cons (ih fun hi => h (hi.trans (List.suffix_cons c body).isInfix)) ?_
    intro offset rest
    refine skipFiller_block fun more heq => ?_
    obtain ⟨rfl, hbody⟩ := List.cons.inj heq
    cases body with
    | nil => cases hbody
    | cons d body =>
      obtain ⟨rfl, -⟩ := List.cons.inj hbody
      exact h ⟨[], body, rfl⟩

theorem leaves_comment {body : List Char} (h : ¬ "*/".toList <:+: body) :
    Leaves .outside ('/' :: '*' :: body ++ ['*', '/']) := by
  intro offset rest
  exact (leaves_block h offset (offset + 2) rest).trans (by
    rw [List.cons_append, List.cons_append, byteLength, byteLength, ← Nat.add_assoc,
      ← Nat.add_assoc]
    rfl)

/-- The same state, but a block comment that is open was opened at `opened`. -/
def reopen (opened : Nat) : Filler → Filler
  | .block _ => .block opened
  | filler => filler

/-- A text that ends where no comment is open, after a block comment was, is not empty. -/
theorem ne_nil_of_leaves_block {opened : Nat} {gap : List Char} (h : Leaves (.block opened) gap) :
    gap ≠ [] := by
  rintro rfl
  cases h 0 []

/-- What is skipped before something else is skipped whatever follows it. -/
theorem skipFiller_leaves {filler : Filler} {offset : Nat} {text : List Char} {found : Cursor}
    (h : skipFiller filler offset text = .ok found) (hne : found.rest ≠ []) :
    ∃ gap, text = gap ++ found.rest ∧ (∀ opened, Leaves (reopen opened filler) gap) ∧
      StartsIn .operand found.rest := by
  fun_induction skipFiller filler offset text with
  | case1 => cases h
  | case2 | case3 =>
    cases h
    exact absurd rfl hne
  | case4 offset rest ih =>
    obtain ⟨gap, heq, hleaves, hstarts⟩ := ih h
    exact ⟨'\n' :: gap, by rw [heq]; rfl,
      fun opened => (hleaves opened).cons fun _ _ => rfl, hstarts⟩
  | case5 offset c rest hc ih =>
    obtain ⟨gap, heq, hleaves, hstarts⟩ := ih h
    refine ⟨c :: gap, by rw [heq]; rfl, fun opened => (hleaves opened).cons fun _ _ => ?_, hstarts⟩
    show skipFiller .line _ _ = skipFiller .line _ _
    rw [skipFiller]
    exact hc
  | case6 _ offset rest ih =>
    obtain ⟨gap, heq, hleaves, hstarts⟩ := ih h
    refine ⟨'*' :: '/' :: gap, by rw [heq]; rfl, fun opened offset rest => ?_, hstarts⟩
    exact (hleaves opened _ rest).trans
      (by rw [byteLength, byteLength, ← Nat.add_assoc, ← Nat.add_assoc]; rfl)
  | case7 opened offset c rest hc ih =>
    obtain ⟨gap, heq, hleaves, hstarts⟩ := ih h
    refine ⟨c :: gap, by rw [heq]; rfl, fun opened =>
      (hleaves opened).cons fun offset after => ?_, hstarts⟩
    refine skipFiller_block fun more hmore => ?_
    obtain ⟨hstar, hslash⟩ := List.cons.inj hmore
    cases gap with
    | nil => exact ne_nil_of_leaves_block (hleaves 0) rfl
    | cons d gap =>
      obtain ⟨rfl, -⟩ := List.cons.inj hslash
      exact hc (gap ++ found.rest) hstar heq
  | case8 offset rest ih =>
    obtain ⟨gap, heq, hleaves, hstarts⟩ := ih h
    refine ⟨'/' :: '/' :: gap, by rw [heq]; rfl, fun opened offset rest => ?_, hstarts⟩
    exact (hleaves opened _ rest).trans
      (by rw [byteLength, byteLength, ← Nat.add_assoc, ← Nat.add_assoc]; rfl)
  | case9 offset rest ih =>
    obtain ⟨gap, heq, hleaves, hstarts⟩ := ih h
    refine ⟨'/' :: '*' :: gap, by rw [heq]; rfl, fun opened offset rest => ?_, hstarts⟩
    exact (hleaves offset _ rest).trans
      (by rw [byteLength, byteLength, ← Nat.add_assoc, ← Nat.add_assoc]; rfl)
  | case10 offset c rest _ _ hsep ih =>
    obtain ⟨gap, heq, hleaves, hstarts⟩ := ih h
    exact ⟨c :: gap, by rw [heq]; rfl,
      fun opened => (hleaves opened).cons fun _ _ => skipFiller_separator hsep _ _, hstarts⟩
  | case11 offset c rest hline hblock hsep =>
    cases h
    refine ⟨[], rfl, fun _ => leaves_nil, fun o => ?_⟩
    have stops : skipFiller .outside o (c :: rest) = .ok ⟨o, c :: rest⟩ := by
      rw [skipFiller]
      · exact if_neg hsep
      · exact hline
      · exact hblock
    simp only [skip, stops]

/-! ## What comes before a token -/

theorem skips_of_leaves {mode : LexMode} (hm : mode ≠ .member) {gap : List Char}
    (h : Leaves .outside gap) : Skips mode gap := by
  intro offset rest
  cases mode with
  | member => exact absurd rfl hm
  | operand | operator => simp only [skip, h offset rest]

theorem skips_separators {gap : List Char} (h : ∀ c ∈ gap, Text.isSeparator c) (mode : LexMode) :
    Skips mode gap := by
  by_cases hm : mode = .member
  · subst hm
    intro offset rest
    have hall : ∀ c ∈ gap, Text.isSeparator c = true := h
    simp only [skip, Cursor.skipWhile, List.takeWhile_append_of_pos hall,
      List.dropWhile_append_of_pos hall, byteLength_append, Nat.add_assoc]
  · exact skips_of_leaves hm (leaves_separators h)

theorem skips_comment {mode : LexMode} (hm : mode ≠ .member) {body : List Char}
    (h : ¬ "*/".toList <:+: body) :
    Skips mode (' ' :: '/' :: '*' :: body ++ ['*', '/', ' ']) := by
  have space : Leaves .outside [' '] := leaves_separators (by simp [Text.isSeparator])
  have whole := skips_of_leaves hm ((space.append (leaves_comment h)).append space)
  simpa using whole

theorem startsIn_of_operand {mode : LexMode} (hm : mode ≠ .member) {text : List Char}
    (h : StartsIn .operand text) : StartsIn mode text := by
  cases mode with
  | member => exact absurd rfl hm
  | operand | operator => exact h

/-- Filler, and then something else. -/
theorem skip_gap {mode : LexMode} {offset : Nat} {text : List Char} {found : Cursor}
    (h : skip mode ⟨offset, text⟩ = .ok found) (hne : found.rest ≠ []) :
    ∃ gap, text = gap ++ found.rest ∧ Skips mode gap ∧ StartsIn mode found.rest := by
  by_cases hm : mode = .member
  · subst hm
    cases h
    refine ⟨text.takeWhile Text.isSeparator, List.takeWhile_append_dropWhile.symm,
      skips_separators (fun c hc => List.all_eq_true.mp List.all_takeWhile c hc) _, fun o => ?_⟩
    have hhead := List.head_dropWhile_not Text.isSeparator hne
    simp only [Cursor.skipWhile] at hne hhead ⊢
    cases hrest : text.dropWhile Text.isSeparator with
    | nil => exact absurd hrest hne
    | cons c rest =>
      simp only [hrest, List.head_cons] at hhead
      simp [skip, Cursor.skipWhile, hhead, byteLength]
  · have hskip : skipFiller .outside offset text = .ok found := by
      cases mode with
      | member => exact absurd rfl hm
      | operand | operator =>
        simp only [skip] at h
        split at h
        case h_1 heq =>
          cases h
          exact heq
        case h_2 => cases h
    obtain ⟨gap, heq, hleaves, hstarts⟩ := skipFiller_leaves hskip hne
    exact ⟨gap, heq, skips_of_leaves hm (hleaves 0), startsIn_of_operand hm hstarts⟩

theorem not_separator_of_starts {mode : LexMode} {c : Char} {rest : List Char}
    (h : StartsIn mode (c :: rest)) : Text.isSeparator c = false := by
  apply Bool.eq_false_iff.mpr
  intro hc
  have gap : ∀ d ∈ [c], Text.isSeparator d := by simpa using hc
  have hskip := skips_separators gap mode 0 rest
  rw [List.singleton_append, h 0] at hskip
  have hle := (skip_suffix hskip.symm).length_le
  simp only [List.length_cons] at hle
  omega

theorem not_comment_of_starts {c : Char} (hc : c = '/' ∨ c = '*') (rest : List Char) :
    ¬ StartsIn .operand ('/' :: c :: rest) := by
  intro h
  have part (filler : Filler) (hf : skipFiller .outside 0 ('/' :: c :: rest) =
      skipFiller filler 2 rest) : False := by
    have hskip := h 0
    simp only [skip, hf] at hskip
    split at hskip
    case h_1 found heq =>
      cases hskip
      have hle := (skipFiller_suffix heq).length_le
      simp only [List.length_cons] at hle
      omega
    case h_2 => cases hskip
  rcases hc with rfl | rfl
  · exact part .line rfl
  · exact part (.block 0) rfl

/-- A token begins with what is neither a separator nor the opening of a comment. -/
theorem startsIn_cons {mode : LexMode} {c : Char} {rest : List Char}
    (hs : Text.isSeparator c = false)
    (hc : mode ≠ .member → c = '/' → ∀ d ∈ rest.head?, d ≠ '/' ∧ d ≠ '*') :
    StartsIn mode (c :: rest) := by
  intro offset
  by_cases hm : mode = .member
  · subst hm
    simp [skip, Cursor.skipWhile, hs, byteLength]
  · have stops : skipFiller .outside offset (c :: rest) = .ok ⟨offset, c :: rest⟩ := by
      rw [skipFiller]
      · exact if_neg (by simp [hs])
      · rintro more hslash rfl
        exact (hc hm hslash _ rfl).1 rfl
      · rintro more hslash rfl
        exact (hc hm hslash _ rfl).2 rfl
    cases mode with
    | member => exact absurd rfl hm
    | operand | operator => simp only [skip, stops]

/-- Where a token begins, and whether, shows in its first two characters. -/
theorem startsIn_cut {mode : LexMode} (ht : ∀ c ∈ t.head?, c ≠ '/' ∧ c ≠ '*') (hp : p ≠ [])
    (h : StartsIn mode (p ++ x)) : StartsIn mode (p ++ t) := by
  cases p with
  | nil => exact absurd rfl hp
  | cons c p =>
    refine startsIn_cons (not_separator_of_starts h) ?_
    rintro hm rfl d hd
    have hx : StartsIn .operand ('/' :: (p ++ x)) := by
      cases mode with
      | member => exact absurd rfl hm
      | operand | operator => exact h
    cases p with
    | nil => exact ht d hd
    | cons e p =>
      obtain rfl : e = d := Option.some.inj hd
      exact ⟨fun hslash => not_comment_of_starts (.inl hslash) (p ++ x) hx,
        fun hstar => not_comment_of_starts (.inr hstar) (p ++ x) hx⟩

theorem next_of_gap {mode : LexMode} {gap text : List Char} (hg : Skips mode gap)
    (hs : StartsIn mode text) (offset : Nat) :
    next mode ⟨offset, gap ++ text⟩ = read mode ⟨offset + byteLength gap, text⟩ := by
  have hskip : skip mode ⟨offset, gap ++ text⟩ = .ok ⟨offset + byteLength gap, text⟩ :=
    (hg offset text).trans (hs _)
  simp only [next, hskip, bind, Except.bind]

/-- **A token before the cut is found as before**, if no lexeme reaches past the cut. -/
theorem next_cut {mode : LexMode} {offset offset' : Nat} {token : Token} {after : Cursor}
    (hkeeps : ∀ q, q <:+ p → q ≠ [] → Keeps q x t)
    (h : next mode ⟨offset, p ++ x⟩ = .ok (token, after))
    (hk : token.kind ≠ .finish) (hafter : after.rest = q ++ x) :
    ∃ span after', next mode ⟨offset', p ++ t⟩ = .ok (⟨token.kind, span⟩, after') ∧
      after'.rest = q ++ t := by
  obtain ⟨found, hskip, hread⟩ := next_eq h
  obtain ⟨-, hfinish, -⟩ | ⟨hne, count, hpos, -, hlast⟩ := read_cases hread
  · exact absurd hfinish hk
  obtain ⟨gap, htext, hgap, hstarts⟩ := skip_gap hskip hne
  -- The gap ends before the cut, since the lexeme does.
  have hshort : after.rest.length < found.rest.length := by
    have := List.length_pos_iff.mpr hne
    rw [hlast, Cursor.advance, List.length_drop]
    omega
  have hlen := congrArg List.length htext
  simp only [hafter, List.length_append] at hshort hlen
  obtain ⟨p, rfl⟩ : gap <+: p := List.prefix_of_prefix_length_le (htext ▸ List.prefix_append gap _)
    (List.prefix_append p x) (by omega)
  rw [List.append_assoc] at htext
  have hfound : found.rest = p ++ x := (List.append_cancel_left htext).symm
  have hp : p ≠ [] := by
    rintro rfl
    simp only [hfound, List.nil_append] at hshort
    omega
  obtain ⟨foundOffset, rest⟩ := found
  obtain rfl : rest = p ++ x := hfound
  have hcut := hkeeps p (List.suffix_append gap p) hp
  obtain ⟨span, after', hread', hrest⟩ := read_cut hcut hread hk hafter
  refine ⟨span, after', ?_, hrest⟩
  rw [List.append_assoc, next_of_gap hgap (startsIn_cut hcut.head hp hstarts)]
  exact hread'

end TagExpr.Token
