import TagExpr.Value.Builtin
import TagExpr.Value.Text

/-!
# Positions in a text

Everything that takes a position in a text, or gives one, counts characters from zero, and all of it
means the same places (`positions_agree`). A cut may be made before any character and at the end; a
character is asked for by the place before it. Any other integer is out of bounds.
-/

namespace TagExpr

namespace Text

variable {piece text : List Char} {n : Nat}

/-- The first place at which the text goes on with the piece is found. -/
theorem find?_eq_some_iff : find? piece text = some n ↔
    n ≤ text.length ∧ piece <+: text.drop n ∧ ∀ k < n, ¬ piece <+: text.drop k := by
  induction text generalizing n with
  | nil =>
    cases piece with
    | nil =>
      simp only [find?, List.isEmpty_nil, if_true, Option.some_inj]
      constructor
      · rintro rfl
        exact ⟨Nat.le_refl _, List.prefix_rfl, fun k hk => absurd hk (Nat.not_lt_zero k)⟩
      · rintro ⟨hn, -⟩
        exact (Nat.le_zero.mp hn).symm
    | cons c piece => simp [find?]
  | cons c rest ih =>
    rw [find?]
    split
    case isTrue head =>
      have here : piece <+: c :: rest := List.isPrefixOf_iff_prefix.mp head
      rw [Option.some_inj]
      constructor
      · rintro rfl
        exact ⟨Nat.zero_le _, here, fun k hk => absurd hk (Nat.not_lt_zero k)⟩
      · rintro ⟨-, -, first⟩
        rcases Nat.eq_zero_or_pos n with rfl | later
        · rfl
        · exact absurd here (first 0 later)
    case isFalse head =>
      have away : ¬ piece <+: c :: rest := fun here => head (List.isPrefixOf_iff_prefix.mpr here)
      cases n with
      | zero =>
        constructor
        · intro found
          cases hrest : find? piece rest <;> simp [hrest] at found
        · rintro ⟨-, here, -⟩
          exact absurd here away
      | succ n =>
        have step : (find? piece rest).map (· + 1) = some (n + 1) ↔ find? piece rest = some n := by
          cases find? piece rest <;> simp
        rw [step, ih, List.length_cons, Nat.succ_le_succ_iff, List.drop_succ_cons]
        refine and_congr_right fun _ => and_congr_right fun _ => ?_
        refine ⟨fun first k hk => ?_, fun first k hk => ?_⟩
        · cases k with
          | zero => exact away
          | succ k => exact first k (Nat.lt_of_succ_lt_succ hk)
        · exact first (k + 1) (Nat.succ_lt_succ hk)

/-- Nothing is found if the text goes on with the piece nowhere. -/
theorem find?_eq_none_iff : find? piece text = none ↔
    ∀ k ≤ text.length, ¬ piece <+: text.drop k := by
  induction text with
  | nil => cases piece <;> simp [find?]
  | cons c rest ih =>
    rw [find?]
    split
    case isTrue head =>
      have here : piece <+: c :: rest := List.isPrefixOf_iff_prefix.mp head
      simpa using ⟨0, Nat.zero_le _, here⟩
    case isFalse head =>
      have away : ¬ piece <+: c :: rest := fun here => head (List.isPrefixOf_iff_prefix.mpr here)
      rw [Option.map_eq_none_iff, ih]
      constructor
      · intro nowhere k hk
        cases k with
        | zero => exact away
        | succ k => exact nowhere k (Nat.le_of_succ_le_succ hk)
      · intro nowhere k hk
        exact nowhere (k + 1) (Nat.succ_le_succ hk)

end Text

namespace Value

/-- A count that an integer can hold is that integer. -/
theorem count_eq_int {n : Nat} {i : Int64} (same : i.toInt = n) : count n = int i := by
  have held : n < 2 ^ 63 := by have := Int64.toInt_lt i; omega
  have least : min n Int64.maxValue.toNatClampNeg = n := by
    rw [show Int64.maxValue.toNatClampNeg = 2 ^ 63 - 1 by decide]
    omega
  rw [count, least, Value.int.injEq, ← Int64.toInt_inj, Int64.toInt_ofNat_of_lt held, same]

variable {h : Host} {s : String} {a b : Value} {i j : Int64}

/-- What a builtin method comes to, if the receiver has it for so many arguments. -/
def invoke? (h : Host) (receiver : Value) (name : String) (args : List Value) :
    Option (Except EvalFault Value) :=
  (Builtin.find? receiver name args.length).map (·.call h receiver args)

/-- The method gives this value. -/
def Gives (h : Host) (receiver : Value) (name : String) (args : List Value) (v : Value) : Prop :=
  invoke? h receiver name args = some (.ok v)

/-- The method refuses this position, for there are no more places than that. -/
def Exceeds (h : Host) (receiver : Value) (name : String) (args : List Value) (position : Int)
    (length : Nat) : Prop :=
  invoke? h receiver name args = some (.error (.indexOutOfBounds position length))

/-! ## Each method by itself -/

theorem placeArgument_eq (method : String) (whole : a.toInt64? = some i) (text : List Char) :
    placeArgument method a text =
      if 0 ≤ i.toInt ∧ i.toInt ≤ text.length then .ok i.toInt.toNat
      else .error (.indexOutOfBounds i.toInt text.length) := by
  simp only [placeArgument, integerArgument, whole, bind, Except.bind]
  rfl

theorem substringFrom_eq (whole : a.toInt64? = some i) :
    invoke? h (str s) "substring" [a] = some
      (if 0 ≤ i.toInt ∧ i.toInt ≤ s.toList.length then .ok (ofChars (s.toList.drop i.toInt.toNat))
      else .error (.indexOutOfBounds i.toInt s.toList.length)) := by
  have call : invoke? h (str s) "substring" [a] =
      some (do return ofChars (s.toList.drop (← placeArgument "substring" a s.toList))) := rfl
  rw [call, placeArgument_eq _ whole]
  split <;> rfl

/-- Two places are checked one after the other, and then against each other. -/
theorem substring_eq (wholeLeft : a.toInt64? = some i) (wholeRight : b.toInt64? = some j) :
    invoke? h (str s) "substring" [a, b] = some
      (if 0 ≤ i.toInt ∧ i.toInt ≤ s.toList.length then
        if 0 ≤ j.toInt ∧ j.toInt ≤ s.toList.length then
          if j.toInt < i.toInt then .error (.indexOutOfBounds j.toInt i.toInt.toNat)
          else .ok (ofChars ((s.toList.drop i.toInt.toNat).take (j.toInt.toNat - i.toInt.toNat)))
        else .error (.indexOutOfBounds j.toInt s.toList.length)
      else .error (.indexOutOfBounds i.toInt s.toList.length)) := by
  have call : invoke? h (str s) "substring" [a, b] =
      some (TextMethod.call h s a b .substring) := rfl
  rw [call, TextMethod.call, placeArgument_eq _ wholeLeft, placeArgument_eq _ wholeRight]
  congr 1
  split
  case isFalse => rfl
  case isTrue left =>
    split
    case isFalse => rfl
    case isTrue right =>
      have order : j.toInt.toNat < i.toInt.toNat ↔ j.toInt < i.toInt := by omega
      have place : (j.toInt.toNat : Int) = j.toInt := Int.toNat_of_nonneg right.1
      simp only [bind, Except.bind, pure, Except.pure, order, place]

theorem charAt_eq (whole : a.toInt64? = some i) :
    invoke? h (str s) "charAt" [a] = some ((itemAt s.toList i.toInt).map ofChar) := by
  have call : invoke? h (str s) "charAt" [a] = some (TextMethod.call h s a null .charAt) := rfl
  rw [call, TextMethod.call]
  simp only [integerArgument, whole, bind, Except.bind]
  cases itemAt s.toList i.toInt <;> rfl

theorem index_eq (whole : a.toInt64? = some i) :
    index h (str s) a = (itemAt s.toList i.toInt).map ofChar := by
  simp only [index, whole]

/-! ## Cuts -/

theorem gives_after (whole : a.toInt64? = some i) (first : 0 ≤ i.toInt)
    (last : i.toInt ≤ s.toList.length) :
    Gives h (str s) "substring" [a] (ofChars (s.toList.drop i.toInt.toNat)) := by
  rw [Gives, substringFrom_eq whole, if_pos ⟨first, last⟩]

theorem gives_middle (wholeLeft : a.toInt64? = some i) (wholeRight : b.toInt64? = some j)
    (first : 0 ≤ i.toInt) (ordered : i.toInt ≤ j.toInt) (last : j.toInt ≤ s.toList.length) :
    Gives h (str s) "substring" [a, b]
      (ofChars ((s.toList.drop i.toInt.toNat).take (j.toInt.toNat - i.toInt.toNat))) := by
  rw [Gives, substring_eq wholeLeft wholeRight, if_pos ⟨first, by omega⟩, if_pos ⟨by omega, last⟩,
    if_neg (by omega)]

theorem gives_before (whole : a.toInt64? = some i) (first : 0 ≤ i.toInt)
    (last : i.toInt ≤ s.toList.length) :
    Gives h (str s) "substring" [int 0, a] (ofChars (s.toList.take i.toInt.toNat)) :=
  gives_middle (toInt64?_int 0) whole (Int.le_refl 0) first last

/-- Outside the text, or the wrong way round, no cut is made. -/
theorem exceeds_of_outside (wholeLeft : a.toInt64? = some i) (wholeRight : b.toInt64? = some j)
    (outside : ¬ (0 ≤ i.toInt ∧ i.toInt ≤ j.toInt ∧ j.toInt ≤ s.toList.length)) :
    ∃ position length, Exceeds h (str s) "substring" [a, b] position length := by
  simp only [Exceeds, substring_eq wholeLeft wholeRight]
  split
  case isFalse => exact ⟨_, _, rfl⟩
  case isTrue left =>
    split
    case isFalse => exact ⟨_, _, rfl⟩
    case isTrue right => exact ⟨_, _, by rw [if_pos (by omega)]⟩

/-- Texts are put together by `+`. -/
theorem add_ofChars (h : Host) (front back : List Char) :
    binary h .add (ofChars front) (ofChars back) = .ok (ofChars (front ++ back)) := by
  simp only [binary, plus, ofChars, display_str, String.ofList_append]

theorem ofChars_toList (s : String) : ofChars s.toList = str s := by
  simp only [ofChars, String.ofList_toList]

/-- The middle piece is as long as its ends are apart. -/
theorem gives_length_middle (first : 0 ≤ i.toInt) (ordered : i.toInt ≤ j.toInt)
    (last : j.toInt ≤ s.toList.length) :
    Gives h (ofChars ((s.toList.drop i.toInt.toNat).take (j.toInt.toNat - i.toInt.toNat)))
      "length" [] (int (j - i)) := by
  have apart : (j - i).toInt = j.toInt - i.toInt := by
    rw [Int64.toInt_sub]
    have := Int64.toInt_lt j
    exact Int.bmod_eq_of_le (by omega) (by omega)
  have call : ∀ text, invoke? h (ofChars text) "length" [] =
      some (.ok (count (String.ofList text).toList.length)) := fun _ => rfl
  rw [Gives, call, String.toList_ofList, List.length_take, List.length_drop,
    count_eq_int (i := j - i) (by omega)]

/-- Three pieces that meet are the text again. -/
theorem pieces_append (text : List Char) {start stop : Nat} (ordered : start ≤ stop) :
    text.take start ++ ((text.drop start).take (stop - start) ++ text.drop stop) = text := by
  have rest : (text.drop start).drop (stop - start) = text.drop stop := by
    rw [List.drop_drop, Nat.add_sub_cancel' ordered]
  rw [← rest, List.take_append_drop, List.take_append_drop]

/-! ## Characters -/

/-- The character at a place is the piece up to the next place. -/
theorem gives_char {c : Char} (wholeLeft : a.toInt64? = some i) (wholeRight : b.toInt64? = some j)
    (next : j.toInt = i.toInt + 1) (here : itemAt s.toList i.toInt = .ok c) :
    Gives h (str s) "substring" [a, b] (ofChar c) := by
  obtain ⟨first, there⟩ := itemAt_eq_ok_iff.1 here
  obtain ⟨inside, rfl⟩ := List.getElem?_eq_some_iff.1 there
  have one : j.toInt.toNat - i.toInt.toNat = 1 := by omega
  have piece := gives_middle (h := h) wholeLeft wholeRight first (by omega) (s := s) (by omega)
  rwa [one, List.drop_eq_getElem_cons inside, List.take_succ_cons, List.take_zero] at piece

theorem itemAt_eq_error {α : Type} {items : List α} {position : Int}
    (outside : ¬ (0 ≤ position ∧ position < items.length)) :
    itemAt items position = .error (.indexOutOfBounds position items.length) := by
  have none : (if position < 0 then Option.none else items[position.toNat]?) = Option.none := by
    split
    case isTrue => rfl
    case isFalse => exact List.getElem?_eq_none (by omega)
  rw [itemAt, none]

/-! ## Searches -/

/-- The text after this place starts with that text. -/
def GoesOn (h : Host) (s : String) (t : Value) (i : Int64) : Prop :=
  ∃ after, Gives h (str s) "substring" [int i] (str after) ∧
    Gives h (str after) "startsWith" [t] (bool true)

variable {t : Value}

theorem goesOn_iff : GoesOn h s t i ↔ (0 ≤ i.toInt ∧ i.toInt ≤ s.toList.length) ∧
    (t.display h).toList <+: s.toList.drop i.toInt.toNat := by
  have cut := substringFrom_eq (h := h) (s := s) (toInt64?_int i)
  have starts : ∀ after : String, Gives h (str after) "startsWith" [t] (bool true) ↔
      (t.display h).toList <+: after.toList := fun after => by
    have call : invoke? h (str after) "startsWith" [t] =
        some (.ok (bool ((t.display h).toList.isPrefixOf after.toList))) := rfl
    simp only [Gives, call, Option.some_inj, Except.ok.injEq, Value.bool.injEq,
      List.isPrefixOf_iff_prefix]
  simp only [GoesOn, Gives] at starts ⊢
  rw [cut]
  split
  case isTrue inside =>
    simp only [inside, and_self, true_and, Option.some_inj, Except.ok.injEq, ofChars,
      Value.str.injEq, starts]
    simp
  case isFalse outside => simp [outside]

/-- A text is found at the first place that goes on with it, and nowhere if it is not in there. -/
theorem indexOf_spec (h : Host) (t : Value)
    (fits : (s.toList.length : Int) ≤ Int64.maxValue.toInt) :
    ∃ place : Int64, Gives h (str s) "indexOf" [t] (int place) ∧
      (place = -1 ∧ Gives h (str s) "contains" [t] (bool false) ∧ (∀ i, ¬ GoesOn h s t i) ∨
        Gives h (str s) "contains" [t] (bool true) ∧ GoesOn h s t place ∧
          ∀ i, GoesOn h s t i → place.toInt ≤ i.toInt) := by
  have search : invoke? h (str s) "indexOf" [t] =
      some (.ok (found (Text.find? (t.display h).toList s.toList))) := rfl
  have test : invoke? h (str s) "contains" [t] =
      some (.ok (bool (Text.find? (t.display h).toList s.toList).isSome)) := rfl
  simp only [Gives, search, test]
  cases hfind : Text.find? (t.display h).toList s.toList with
  | none =>
    have nowhere := Text.find?_eq_none_iff.1 hfind
    refine ⟨-1, rfl, .inl ⟨rfl, rfl, fun i goes => ?_⟩⟩
    obtain ⟨inside, here⟩ := goesOn_iff.1 goes
    exact nowhere i.toInt.toNat (by omega) here
  | some n =>
    obtain ⟨last, here, first⟩ := Text.find?_eq_some_iff.1 hfind
    have largest : Int64.maxValue.toInt = 9223372036854775807 := rfl
    have place : (Int64.ofNat n).toInt = n := Int64.toInt_ofNat_of_lt (by omega)
    refine ⟨Int64.ofNat n, ?_, .inr ⟨rfl, ?_, fun i goes => ?_⟩⟩
    · simp only [found, count_eq_int place]
    · exact goesOn_iff.2 ⟨by omega, by rwa [place, Int.toNat_natCast]⟩
    · obtain ⟨inside, there⟩ := goesOn_iff.1 goes
      have := mt (first i.toInt.toNat) (not_not_intro there)
      omega

/-! ## All of them together -/

/-- **Places in a text are counted in characters, by every method alike.** A place that is found is
an integer, as no text that fits into memory has more characters than the largest one. -/
theorem positions_agree (h : Host) (s : String) :
    (∀ (a : Value) (i : Int64), a.toInt64? = some i →
      if 0 ≤ i.toInt ∧ i.toInt ≤ s.toList.length then
        ∃ after, Gives h (str s) "substring" [a] (str after)
      else Exceeds h (str s) "substring" [a] i.toInt s.toList.length) ∧
    (∀ (a b : Value) (i j : Int64), a.toInt64? = some i → b.toInt64? = some j →
      if 0 ≤ i.toInt ∧ i.toInt ≤ j.toInt ∧ j.toInt ≤ s.toList.length then
        ∃ before middle after, Gives h (str s) "substring" [int 0, a] before ∧
          Gives h (str s) "substring" [a, b] middle ∧ Gives h (str s) "substring" [b] after ∧
          Gives h middle "length" [] (int (j - i)) ∧
          (binary h .add before middle >>= fun front => binary h .add front after) = .ok (str s)
      else ∃ position length, Exceeds h (str s) "substring" [a, b] position length) ∧
    (∀ (a : Value) (i : Int64), a.toInt64? = some i →
      if 0 ≤ i.toInt ∧ i.toInt < s.toList.length then
        ∃ c, Gives h (str s) "charAt" [a] c ∧ index h (str s) a = .ok c ∧
          ∀ (b : Value) (j : Int64), b.toInt64? = some j → j.toInt = i.toInt + 1 →
            Gives h (str s) "substring" [a, b] c
      else Exceeds h (str s) "charAt" [a] i.toInt s.toList.length ∧
        index h (str s) a = .error (.indexOutOfBounds i.toInt s.toList.length)) ∧
    ((s.toList.length : Int) ≤ Int64.maxValue.toInt → ∀ t,
      ∃ place : Int64, Gives h (str s) "indexOf" [t] (int place) ∧
        (place = -1 ∧ Gives h (str s) "contains" [t] (bool false) ∧ (∀ i, ¬ GoesOn h s t i) ∨
          Gives h (str s) "contains" [t] (bool true) ∧ GoesOn h s t place ∧
            ∀ i, GoesOn h s t i → place.toInt ≤ i.toInt)) := by
  refine ⟨fun a i whole => ?cut, fun a b i j wholeLeft wholeRight => ?cuts, fun a i whole => ?char,
    fun fits t => indexOf_spec h t fits⟩
  case cut =>
    split
    case isTrue inside => exact ⟨_, gives_after whole inside.1 inside.2⟩
    case isFalse outside => rw [Exceeds, substringFrom_eq whole, if_neg outside]
  case cuts =>
    split
    case isTrue inside =>
      obtain ⟨first, ordered, last⟩ := inside
      refine ⟨_, _, _, gives_before wholeLeft first (by omega),
        gives_middle wholeLeft wholeRight first ordered last,
        gives_after wholeRight (by omega) last, gives_length_middle first ordered last, ?_⟩
      simp only [add_ofChars, bind, Except.bind, List.append_assoc]
      rw [pieces_append _ (by omega), ofChars_toList]
    case isFalse outside => exact exceeds_of_outside wholeLeft wholeRight outside
  case char =>
    split
    case isTrue inside =>
      have bound : i.toInt.toNat < s.toList.length := by omega
      have here : itemAt s.toList i.toInt = .ok s.toList[i.toInt.toNat] :=
        itemAt_eq_ok_iff.2 ⟨inside.1, List.getElem?_eq_getElem bound⟩
      exact ⟨_, by rw [Gives, charAt_eq whole, here]; rfl, by rw [index_eq whole, here]; rfl,
        fun b j wholeRight next => gives_char whole wholeRight next here⟩
    case isFalse outside =>
      have nothing := itemAt_eq_error outside
      exact ⟨by rw [Exceeds, charAt_eq whole, nothing]; rfl, by rw [index_eq whole, nothing]; rfl⟩

/-- Letters that take several bytes are one place each. -/
theorem positions_agree_letters :
    (∃ c, Gives {} (str "añ😀b") "charAt" [int 2] c ∧
        Gives {} (str "añ😀b") "substring" [int 2, int 3] c) ∧
      Exceeds {} (str "añ😀b") "charAt" [int 4] 4 4 ∧
      (∃ middle, Gives {} (str "añ😀b") "substring" [int 1, int 3] middle ∧
        Gives {} middle "length" [] (int 2)) ∧
      ∃ place : Int64, Gives {} (str "añ😀b") "indexOf" [str "b"] (int place) ∧
        (place = -1 ∨ GoesOn {} "añ😀b" (str "b") place) := by
  obtain ⟨-, cuts, chars, searches⟩ := positions_agree {} "añ😀b"
  refine ⟨?char, ?beyond, ?piece, ?search⟩
  case char =>
    obtain ⟨c, at2, -, piece⟩ := (if_pos (by decide)).mp (chars (int 2) 2 rfl)
    exact ⟨c, at2, piece (int 3) 3 rfl (by decide)⟩
  case beyond => exact ((if_neg (by decide)).mp (chars (int 4) 4 rfl)).1
  case piece =>
    obtain ⟨-, middle, -, -, cut, -, length, -⟩ :=
      (if_pos (by decide)).mp (cuts (int 1) (int 3) 1 3 rfl rfl)
    exact ⟨middle, cut, length⟩
  case search =>
    obtain ⟨place, given, ⟨none, -⟩ | ⟨-, goes, -⟩⟩ := searches (by decide) (str "b")
    · exact ⟨place, given, .inl none⟩
    · exact ⟨place, given, .inr goes⟩

end Value

end TagExpr
