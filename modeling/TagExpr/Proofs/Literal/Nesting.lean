import TagExpr.Proofs.Token.Extent

/-!
# Where an interpolated source ends

The search for the brace that closes an interpolation counts braces and steps over quotes; it knows
nothing of the tokens of the source. A text in which braces and quotes pair up (`Balanced`) is found
whole by it, and no other text is (`interpolated?_eq_some_iff`). So the literal around it has that
text as its only part (`split_interpolation`, `balanced_of_split`).
-/

namespace TagExpr.Literal

/-! ## Braces and quotes -/

/-- What is open at a place of a text: how many braces, and which quotes, if any. -/
structure Nesting where
  braces : Nat
  quote : Option Char
  deriving DecidableEq

/-- The characters that open or close something. -/
def isMarker (c : Char) : Bool := c = '\x7b' || c = '\x7d' || c = '"' || c = '\''

namespace Nesting

/-- What is open behind one more character. Inside of quotes braces do not count, and a brace that
is not open cannot be closed. -/
def pass? (n : Nesting) (c : Char) : Option Nesting :=
  match n.quote with
  | some q => some { n with quote := if c = q then none else some q }
  | none =>
    if c = '\x7b' then some { n with braces := n.braces + 1 }
    else if c = '\x7d' then
      match n.braces with
      | 0 => none
      | braces + 1 => some { n with braces }
    else if c = '"' ∨ c = '\'' then some { n with quote := some c }
    else some n

/-- What is open behind a text. -/
def passAll? (n : Nesting) (text : List Char) : Option Nesting := text.foldlM pass? n

variable {n m : Nesting} {c q : Char} {text more : List Char}

@[simp] theorem passAll?_nil (n : Nesting) : n.passAll? [] = some n := rfl

@[simp] theorem passAll?_cons (n : Nesting) (c : Char) (text : List Char) :
    n.passAll? (c :: text) = (n.pass? c).bind (·.passAll? text) := rfl

@[simp] theorem passAll?_append (n : Nesting) (text more : List Char) :
    n.passAll? (text ++ more) = (n.passAll? text).bind (·.passAll? more) :=
  List.foldlM_append

/-- Texts that lead from one place to the next lead from the first place to the last. -/
theorem passAll?_trans {l : Nesting} (h : n.passAll? text = some m)
    (h' : m.passAll? more = some l) : n.passAll? (text ++ more) = some l := by
  rw [passAll?_append, h, Option.bind_some, h']

/-- Braces that stay open around a text do not matter to it. -/
theorem pass?_deeper (h : n.pass? c = some m) (depth : Nat) :
    pass? ⟨n.braces + depth, n.quote⟩ c = some ⟨m.braces + depth, m.quote⟩ := by
  obtain ⟨braces, quote⟩ := n
  cases quote with
  | some q =>
    cases h
    rfl
  | none =>
    simp only [pass?] at h ⊢
    split at h
    case isTrue hopen =>
      cases h
      rw [if_pos hopen, Nat.add_right_comm]
    case isFalse hopen =>
      rw [if_neg hopen]
      split at h
      case isTrue hclose =>
        cases braces with
        | zero => cases h
        | succ braces =>
          cases h
          rw [if_pos hclose, Nat.add_right_comm]
      case isFalse hclose =>
        rw [if_neg hclose]
        split at h
        case isTrue hquote =>
          cases h
          rw [if_pos hquote]
        case isFalse hquote =>
          cases h
          rw [if_neg hquote]

theorem passAll?_deeper (h : n.passAll? text = some m) (depth : Nat) :
    passAll? ⟨n.braces + depth, n.quote⟩ text = some ⟨m.braces + depth, m.quote⟩ := by
  induction text generalizing n with
  | nil =>
    cases h
    rfl
  | cons c text ih =>
    obtain ⟨l, hc, hl⟩ := Option.bind_eq_some_iff.mp h
    rw [passAll?_cons, pass?_deeper hc, Option.bind_some]
    exact ih hl

/-- Text without markers opens and closes nothing. -/
theorem passAll?_plain (h : ∀ c ∈ text, isMarker c = false) (braces : Nat) :
    passAll? ⟨braces, none⟩ text = some ⟨braces, none⟩ := by
  induction text with
  | nil => rfl
  | cons c text ih =>
    have hc := h c List.mem_cons_self
    simp only [isMarker, Bool.or_eq_false_iff, decide_eq_false_iff_not] at hc
    obtain ⟨⟨⟨hopen, hclose⟩, hdouble⟩, hsingle⟩ := hc
    simp only [passAll?_cons, pass?, hopen, hclose, hdouble, hsingle, or_self, if_false,
      Option.bind_some]
    exact ih fun d hd => h d (List.mem_cons_of_mem c hd)

/-- Quotes are left by their closer only. -/
theorem passAll?_inside (h : q ∉ text) (braces : Nat) :
    passAll? ⟨braces, some q⟩ (text ++ [q]) = some ⟨braces, none⟩ := by
  induction text with
  | nil => simp [pass?]
  | cons c text ih =>
    rw [List.mem_cons, not_or] at h
    simp only [List.cons_append, passAll?_cons, pass?, if_neg (Ne.symm h.1), Option.bind_some]
    exact ih h.2

theorem passAll?_quoted (hq : q = '"' ∨ q = '\'') (h : q ∉ text) (braces : Nat) :
    passAll? ⟨braces, none⟩ (q :: text ++ [q]) = some ⟨braces, none⟩ := by
  have hopens : pass? ⟨braces, none⟩ q = some ⟨braces, some q⟩ := by
    rcases hq with rfl | rfl <;> rfl
  rw [List.cons_append, passAll?_cons, hopens, Option.bind_some]
  exact passAll?_inside h braces

end Nesting

open Nesting

variable {n m : Nesting} {c : Char} {text rest : List Char}

/-- Braces and quotes pair up in the text. -/
def Balanced (text : List Char) : Prop := passAll? ⟨0, none⟩ text = some ⟨0, none⟩

instance (text : List Char) : Decidable (Balanced text) :=
  inferInstanceAs (Decidable (_ = _))

theorem Balanced.passAll? (h : Balanced text) (braces : Nat) :
    Nesting.passAll? ⟨braces, none⟩ text = some ⟨braces, none⟩ := by
  simpa only [Nat.zero_add] using passAll?_deeper h braces

theorem balanced_of_plain (h : ∀ c ∈ text, isMarker c = false) : Balanced text :=
  passAll?_plain h 0

/-! ## The search for the closing brace -/

/-- Where braces balance the search goes on, and a brace too many ends it. -/
theorem interpolated?_cons (hc : c ≠ '\\') (n : Nesting) (rest : List Char) :
    interpolated? n.braces n.quote (c :: rest) =
      match n.pass? c with
      | some m => (interpolated? m.braces m.quote rest).map (c :: ·)
      | none => some [] := by
  obtain ⟨braces, quote⟩ := n
  rw [interpolated?.eq_def]
  split
  case h_1 heq => cases heq
  case h_2 heq => exact absurd (List.cons.inj heq).1 hc
  case h_3 heq =>
    cases heq
    cases quote with
    | some q => rfl
    | none =>
      simp only [pass?]
      split
      case isTrue => rfl
      case isFalse =>
        split
        case isTrue => cases braces <;> rfl
        case isFalse => split <;> rfl

/-- The search goes past a text that opens no more than it closes. -/
theorem interpolated?_append (h : '\\' ∉ text) (hm : n.passAll? text = some m) (rest : List Char) :
    interpolated? n.braces n.quote (text ++ rest) =
      (interpolated? m.braces m.quote rest).map (text ++ ·) := by
  induction text generalizing n with
  | nil =>
    cases hm
    simp
  | cons c text ih =>
    rw [List.mem_cons, not_or] at h
    obtain ⟨l, hc, hl⟩ := Option.bind_eq_some_iff.mp hm
    rw [List.cons_append, interpolated?_cons (Ne.symm h.1), hc]
    simp only [ih h.2 hl, Option.map_map]
    rfl

/-- Where a text closes a brace too many, the search ends there. -/
theorem interpolated?_early (h : '\\' ∉ text) (hn : n.passAll? text = none) (rest : List Char) :
    ∃ source, interpolated? n.braces n.quote (text ++ rest) = some source ∧
      source.length < text.length := by
  induction text generalizing n with
  | nil => cases hn
  | cons c text ih =>
    rw [List.mem_cons, not_or] at h
    rw [List.cons_append, interpolated?_cons (Ne.symm h.1)]
    cases hc : n.pass? c with
    | none => exact ⟨[], rfl, Nat.succ_pos _⟩
    | some l =>
      rw [passAll?_cons, hc, Option.bind_some] at hn
      obtain ⟨source, hsource, hlength⟩ := ih h.2 hn
      refine ⟨c :: source, by simp only [hsource, Option.map_some], ?_⟩
      simp only [List.length_cons]
      omega

/-- Exactly the balanced texts are found whole. -/
theorem interpolated?_eq_some_iff (h : '\\' ∉ text) :
    interpolated? 0 none (text ++ ['\x7d']) = some text ↔ Balanced text := by
  unfold Balanced
  cases hp : passAll? ⟨0, none⟩ text with
  | none =>
    obtain ⟨source, hsource, hlength⟩ := interpolated?_early h hp ['\x7d']
    refine iff_of_false ?_ (by simp)
    intro heq
    obtain rfl := Option.some.inj (hsource.symm.trans heq)
    omega
  | some m =>
    have happend := interpolated?_append h hp ['\x7d']
    obtain ⟨braces, quote⟩ := m
    simp only at happend
    rw [happend]
    cases quote with
    | some q => simp [interpolated?]
    | none => cases braces <;> simp [interpolated?]

/-! ## Splitting the literal -/

theorem splitFrom_passed {skip : Nat} (offset : Nat) (hle : text.length ≤ skip) :
    splitFrom skip offset [] text = .ok [] := by
  induction text generalizing skip offset with
  | nil => rfl
  | cons c text ih =>
    cases skip with
    | zero => simp at hle
    | succ skip => exact ih _ (Nat.le_of_succ_le_succ hle)

theorem flush_eq_nil {gathered : List Char} {segments : List Segment}
    (h : flush gathered segments = []) : gathered = [] ∧ segments = [] := by
  unfold flush at h
  split at h
  case isTrue hempty => exact ⟨List.isEmpty_iff.mp hempty, h⟩
  case isFalse => cases h

/-- Only where nothing is left no segment is found. -/
theorem length_le_of_splitFrom {skip offset : Nat} {gathered : List Char}
    (h : splitFrom skip offset gathered text = .ok []) :
    gathered = [] ∧ text.length ≤ skip := by
  fun_induction splitFrom skip offset gathered text with
  | case1 => exact ⟨(flush_eq_nil (Except.ok.inj h)).1, Nat.zero_le _⟩
  | case2 offset gathered c rest skip ih =>
    obtain ⟨hgathered, hle⟩ := ih h
    exact ⟨hgathered, Nat.succ_le_succ hle⟩
  | case3 offset gathered rest ih =>
    obtain ⟨⟨char, count⟩, -, hrest⟩ := ok_of_bind h
    cases (ih char count hrest).1
  | case5 | case6 => cases h
  | case7 | case8 =>
    obtain ⟨segments, -, heq⟩ := ok_of_bind h
    cases (flush_eq_nil (Except.ok.inj heq)).2
  | case4 _ _ _ _ _ ih | case9 _ _ _ _ _ _ _ _ ih | case10 _ _ _ _ _ _ ih => cases (ih h).1

/-- An interpolation at the head of a literal is the first segment. -/
theorem splitFrom_interpolation (text : List Char) :
    splitFrom 0 0 [] ('$' :: '\x7b' :: text) =
      match interpolated? 0 none text with
      | none =>
        .error ⟨.unterminatedInterpolation, Span.ofRange 0 (1 + byteLength ('\x7b' :: text))⟩
      | some source =>
        if source.all Text.isBlank then
          .error ⟨.emptyInterpolation, Span.ofRange 0 (3 + byteLength source)⟩
        else do
          let segments ← splitFrom (source.length + 2) 1 [] ('\x7b' :: text)
          return .expression source 2 :: segments := by
  have hne : '$' ≠ '\\' := by decide
  rw [splitFrom, if_neg hne, if_pos rfl]
  simp only [List.head?_cons, if_true, List.drop_one, List.tail_cons]
  rfl

/-- A literal that is one interpolation of a balanced text is split into that text. -/
theorem split_interpolation (h : '\\' ∉ text) (hb : Balanced text)
    (hblank : text.all Text.isBlank = false) :
    split ('$' :: '\x7b' :: text ++ ['\x7d']) = .ok [.expression text 2] := by
  have hfound := (interpolated?_eq_some_iff h).mpr hb
  have hpassed : splitFrom (text.length + 2) 1 [] ('\x7b' :: (text ++ ['\x7d'])) = .ok [] :=
    splitFrom_passed 1 (by simp)
  simp only [split, List.cons_append, splitFrom_interpolation, hfound, hblank, hpassed]
  rfl

/-- A literal that is one interpolation of a text has one part only if the text is balanced. -/
theorem balanced_of_split (h : '\\' ∉ text) {part : Segment}
    (hsplit : split ('$' :: '\x7b' :: text ++ ['\x7d']) = .ok [part]) : Balanced text := by
  obtain ⟨found, hfound, heq⟩ := ok_of_bind hsplit
  rw [List.cons_append, List.cons_append, splitFrom_interpolation] at hfound
  split at hfound
  case h_1 => cases hfound
  case h_2 source hsource =>
    split at hfound
    case isTrue => cases hfound
    case isFalse =>
      obtain ⟨segments, hrest, hcons⟩ := ok_of_bind hfound
      cases hcons
      obtain ⟨rfl, rfl⟩ := List.cons.inj (Except.ok.inj heq)
      -- Nothing is left behind the brace that ends the source.
      obtain ⟨after, hafter⟩ := closed_of_interpolated? hsource
      have hlength := (length_le_of_splitFrom hrest).2
      have hlength' := congrArg List.length hafter
      simp only [List.length_append, List.length_cons, List.length_nil] at hlength hlength'
      obtain rfl : after = [] := List.length_eq_zero_iff.mp (by omega)
      obtain rfl := List.append_cancel_right hafter
      exact (interpolated?_eq_some_iff h).mp hsource

end TagExpr.Literal
