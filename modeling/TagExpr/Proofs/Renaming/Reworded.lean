import TagExpr.Proofs.Literal.Nesting
import TagExpr.Proofs.Token.Exchange

/-!
# Texts with other words in them

One text is another one with names in the places of names (`Reworded`). Scans that look for quotes,
braces and backslashes pass over both in the same way, since none of these is part of a name: a
literal ends at the same quote, and an interpolated source at the same brace.
-/

namespace TagExpr

open Signature (IsName EndsName)
open Token (isNamePart BeginsName EndsWord)

namespace Token

variable {text more : List Char}

/-- In the text stands no part of a name. -/
def Signs (text : List Char) : Prop := ∀ c ∈ text, isNamePart c = false

theorem signs_of_all (h : text.all (!isNamePart ·)) : Signs text := fun c hc => by
  simpa using List.all_eq_true.mp h c hc

theorem signs_separators (h : ∀ c ∈ text, Text.isSeparator c) : Signs text := fun c hc =>
  separator_cases (P := fun c => isNamePart c = false) (by decide) c (h c hc)

theorem Signs.append (h : Signs text) (hm : Signs more) : Signs (text ++ more) :=
  List.forall_mem_append.mpr ⟨h, hm⟩

theorem Signs.endsWord (h : Signs text) : EndsWord text :=
  fun c hc => h c (List.mem_of_mem_getLast? hc)

end Token

/-- The second text is the first one with names in the places of names, whole words each. The flag
says that what stands before both texts ends inside a word, so that no name begins there. -/
inductive Reworded : Bool → List Char → List Char → Prop
  | nil {inside : Bool} : Reworded inside [] []
  | keep {inside : Bool} {a b : List Char} (c : Char) : Reworded (isNamePart c) a b →
      Reworded inside (c :: a) (c :: b)
  | name {name name' a b : List Char} : IsName name → IsName name' → EndsName a →
      Reworded true a b → Reworded false (name ++ a) (name' ++ b)

/-! ## Braces around words -/

namespace Literal.Nesting

variable {n m : Nesting} {c : Char} {name : List Char}

/-- The quote that is open, if one is, is no part of a name. -/
def Plain (n : Nesting) : Prop := ∀ q ∈ n.quote, isNamePart q = false

theorem Plain.pass? (h : n.Plain) (hm : n.pass? c = some m) : m.Plain := by
  obtain ⟨braces, quote⟩ := n
  unfold Nesting.pass? at hm
  split at hm
  case h_1 q heq =>
    cases hm
    intro q' hq'
    simp only at hq'
    split at hq'
    · cases hq'
    · cases hq'
      exact h q heq
  case h_2 =>
    split at hm
    · cases hm
      exact h
    · split at hm
      · cases braces <;> cases hm
        exact h
      · split at hm
        case isTrue hc =>
          cases hm
          intro q hq
          cases hq
          rcases hc with rfl | rfl <;> decide
        case isFalse =>
          cases hm
          exact h

/-- A word opens and closes nothing. -/
theorem Plain.passAll? (h : n.Plain) (hn : ∀ c ∈ name, isNamePart c) :
    n.passAll? name = some n := by
  induction name with
  | nil => rfl
  | cons c name ih =>
    have hc := hn c List.mem_cons_self
    have hne {x : Char} (hx : isNamePart x = false) : c ≠ x := Token.isNamePart_ne hc hx
    have pass : n.pass? c = some n := by
      obtain ⟨braces, quote⟩ := n
      cases quote with
      | some q => simp [Nesting.pass?, hne (h q rfl)]
      | none =>
        simp [Nesting.pass?, hne (x := '\x7b') (by decide), hne (x := '\x7d') (by decide),
          hne (x := '"') (by decide), hne (x := '\'') (by decide)]
    rw [passAll?_cons, pass, Option.bind_some]
    exact ih fun d hd => hn d (List.mem_cons_of_mem c hd)

/-- The search for the closing brace goes past a word. -/
theorem Plain.interpolated? (h : n.Plain) (hn : ∀ c ∈ name, isNamePart c) (rest : List Char) :
    Literal.interpolated? n.braces n.quote (name ++ rest) =
      (Literal.interpolated? n.braces n.quote rest).map (name ++ ·) := by
  refine interpolated?_append (fun hmem => ?_) (h.passAll? hn) rest
  have hpart : isNamePart '\\' := hn _ hmem
  cases hpart

end Literal.Nesting

namespace Reworded

variable {inside : Bool} {a b p x y : List Char} {c : Char}

theorem refl (inside : Bool) (a : List Char) : Reworded inside a a := by
  induction a generalizing inside with
  | nil => exact .nil
  | cons c a ih => exact .keep c (ih _)

/-- Where no name begins, what stands before does not matter. -/
theorem weaken (h : Reworded true a b) (inside : Bool) : Reworded inside a b := by
  cases h with
  | nil => exact .nil
  | keep c h => exact .keep c h

theorem head? (h : Reworded true a b) : b.head? = a.head? := by
  cases h <;> rfl

theorem endsName (h : Reworded true a b) (ha : EndsName a) : EndsName b := by
  unfold EndsName
  rw [h.head?]
  exact ha

/-- The same text before both. -/
theorem behind (h : Reworded true a b) (p : List Char) (inside : Bool) :
    Reworded inside (p ++ a) (p ++ b) := by
  induction p generalizing inside with
  | nil => exact h.weaken inside
  | cons c p ih => exact .keep c (ih _)

/-- The same text before both, behind which a name may begin. -/
theorem behindWord (h : Reworded false a b) (hp : EndsWord p) (hne : p ≠ []) (inside : Bool) :
    Reworded inside (p ++ a) (p ++ b) := by
  induction p generalizing inside with
  | nil => exact absurd rfl hne
  | cons c p ih =>
    refine .keep c ?_
    by_cases hnil : p = []
    · subst hnil
      rw [hp c rfl]
      exact h
    · exact ih (hp.suffix (List.suffix_cons c p) hnil) hnil _

theorem behindSigns (h : Reworded false a b) (hp : Token.Signs p) :
    Reworded false (p ++ a) (p ++ b) := by
  rcases eq_or_ne p [] with rfl | hne
  · exact h
  · exact h.behindWord hp.endsWord hne false

/-- One pair after the other, where a sign divides them. -/
theorem append (h : Reworded inside a b) (hc : isNamePart c = false)
    (hx : Reworded false x y) : Reworded inside (a ++ c :: x) (b ++ c :: y) := by
  have sign (inside : Bool) : Reworded inside (c :: x) (c :: y) := .keep c (by rwa [hc])
  induction h with
  | nil => exact sign _
  | keep d _ ih => exact .keep d ih
  | @name name name' a b hn hn' hends _ ih =>
    rw [List.append_assoc, List.append_assoc]
    refine .name hn hn' (fun d hd => ?_) ih
    cases a with
    | nil =>
      cases hd
      exact hc
    | cons e a => exact hends d hd

/-- Up to the first name that is another one the texts are the same. -/
theorem first_change (h : Reworded inside a b) : b = a ∨ ∃ p x t, a = p ++ x ∧ b = p ++ t ∧
    BeginsName x ∧ BeginsName t ∧ EndsWord p ∧ (p = [] → inside = false) := by
  induction h with
  | nil => exact .inl rfl
  | @keep inside a b c _ ih =>
    rcases ih with rfl | ⟨p, x, t, rfl, rfl, hx, ht, hp, hinside⟩
    · exact .inl rfl
    · refine .inr ⟨c :: p, x, t, rfl, rfl, hx, ht, fun d hd => ?_, by simp⟩
      cases p with
      | nil =>
        cases hd
        exact hinside rfl
      | cons e p => exact hp d hd
  | name hn hn' _ _ _ =>
    exact .inr ⟨[], _, _, rfl, rfl, Token.beginsName_name hn _, Token.beginsName_name hn' _,
      by simp [EndsWord], fun _ => rfl⟩

/-! ## Braces and quotes -/

theorem map_append_eq {o : Option (List Char)} {p a : List Char} :
    o.map (p ++ ·) = some (p ++ a) ↔ o = some a := by
  cases o <;> simp

/-- **An interpolated source ends where it did**, also behind a backslash. -/
theorem interpolated? (h : Reworded inside a b) {n : Literal.Nesting} (hplain : n.Plain)
    (x y : List Char) :
    (Literal.interpolated? n.braces n.quote (a ++ '\x7d' :: x) = some a →
      Literal.interpolated? n.braces n.quote (b ++ '\x7d' :: y) = some b) ∧
    (Literal.interpolated? n.braces n.quote ('\\' :: (a ++ '\x7d' :: x)) = some ('\\' :: a) →
      Literal.interpolated? n.braces n.quote ('\\' :: (b ++ '\x7d' :: y)) = some ('\\' :: b)) := by
  have escaped (n : Literal.Nesting) (c : Char) (rest : List Char) :
      Literal.interpolated? n.braces n.quote ('\\' :: c :: rest) =
        (Literal.interpolated? n.braces n.quote rest).map (['\\', c] ++ ·) := by
    rw [Literal.interpolated?]
    rfl
  induction h generalizing n with
  | nil =>
    constructor
    · simp only [List.nil_append, Literal.interpolated?_cons (show '\x7d' ≠ '\\' by decide)]
      cases n.pass? '\x7d' <;> simp
    · simp [escaped]
  | @keep inside a b c _ ih =>
    constructor
    · by_cases hc : c = '\\'
      · subst hc
        exact (ih hplain).2
      · simp only [List.cons_append, Literal.interpolated?_cons hc]
        cases hpass : n.pass? c with
        | none => simp
        | some m =>
          have := (ih (hplain.pass? hpass)).1
          simpa using this
    · intro hs
      rw [List.cons_append, escaped] at hs ⊢
      exact map_append_eq.mpr ((ih hplain).1 (map_append_eq.mp hs))
  | @name name name' a b hn hn' _ _ ih =>
    have past {word : List Char} (hw : ∀ c ∈ word, isNamePart c) (rest : List Char) :=
      hplain.interpolated? hw rest
    constructor
    · intro hs
      rw [List.append_assoc, past hn.part, map_append_eq] at hs
      rw [List.append_assoc, past hn'.part, map_append_eq]
      exact (ih hplain).1 hs
    · obtain ⟨c, more, rfl, -, hmore⟩ := hn.cons
      obtain ⟨c', more', rfl, -, hmore'⟩ := hn'.cons
      intro hs
      rw [List.append_assoc, List.cons_append, escaped] at hs ⊢
      have hs : _ = some (more ++ a) := map_append_eq.mp hs
      rw [past hmore, map_append_eq] at hs
      refine map_append_eq.mpr (show _ = some (more' ++ b) from ?_)
      rw [past hmore', map_append_eq]
      exact (ih hplain).1 hs

theorem quotedExtent_word {word : List Char} (hw : ∀ c ∈ word, isNamePart c) (rest : List Char) :
    Token.quotedExtent '"' true (word ++ rest) =
      (Token.quotedExtent '"' true rest).after word.length :=
  Token.quotedExtent_through (fun h => by cases hw _ h) (fun h => by cases hw _ h) rest

/-- **A literal ends where it did**, also behind a backslash. -/
theorem quotedExtent (h : Reworded inside a b) (x y : List Char) :
    (Token.quotedExtent '"' true (a ++ '"' :: x) = ⟨a.length + 1, true⟩ →
      Token.quotedExtent '"' true (b ++ '"' :: y) = ⟨b.length + 1, true⟩) ∧
    (Token.quotedExtent '"' true ('\\' :: (a ++ '"' :: x)) = ⟨a.length + 2, true⟩ →
      Token.quotedExtent '"' true ('\\' :: (b ++ '"' :: y)) = ⟨b.length + 2, true⟩) := by
  have escaped {c : Char} (hc : c ≠ '\n') (rest : List Char) :
      Token.quotedExtent '"' true ('\\' :: c :: rest) =
        (Token.quotedExtent '"' true rest).after 2 := by
    rw [Token.quotedExtent, if_neg hc]
  have ended (c : Char) (rest : List Char) (hc : c = '\n') :
      Token.quotedExtent '"' true ('\\' :: c :: rest) = ⟨0, false⟩ := by
    rw [Token.quotedExtent, if_pos hc]
  induction h with
  | nil =>
    constructor
    · intro _
      rw [List.nil_append, Token.quotedExtent_plain (by decide), if_pos rfl]
      rfl
    · intro hs
      rw [List.nil_append, escaped (by decide)] at hs
      have hs : Token.quotedExtent '"' true x = ⟨0, true⟩ := (Token.after_eq rfl).mp hs
      obtain ⟨_, _, -, hlen⟩ := Token.quotedExtent_split (congrArg Token.Extent.closed hs)
      rw [hs] at hlen
      cases hlen
  | @keep inside a b c _ ih =>
    constructor
    · by_cases hc : c = '\\'
      · subst hc
        exact ih.2
      · by_cases hquote : c = '"'
        · intro hs
          rw [List.cons_append, Token.quotedExtent_plain hc, if_pos hquote] at hs
          cases hs
        · simp only [List.cons_append, Token.quotedExtent_plain hc, if_neg hquote, Bool.not_true,
            Bool.and_false, Bool.false_eq_true, if_false, List.length_cons]
          rw [Token.after_eq (Nat.add_comm _ 1), Token.after_eq (Nat.add_comm _ 1)]
          exact ih.1
    · intro hs
      by_cases hc : c = '\n'
      · rw [List.cons_append, ended c _ hc] at hs
        cases hs
      · have hlen (l : List Char) : (c :: l).length + 2 = 2 + (l.length + 1) := by
          rw [List.length_cons]
          omega
        rw [List.cons_append, escaped hc, Token.after_eq (hlen _)] at hs ⊢
        exact ih.1 hs
  | @name name name' a b hn hn' _ _ ih =>
    have past {word : List Char} (hw : ∀ c ∈ word, isNamePart c) (rest : List Char) (n : Nat) :
        Token.quotedExtent '"' true (word ++ rest) = ⟨word.length + n, true⟩ ↔
          Token.quotedExtent '"' true rest = ⟨n, true⟩ := by
      rw [quotedExtent_word hw, Token.after_eq rfl]
    constructor
    · intro hs
      rw [List.append_assoc, List.length_append, Nat.add_assoc, past hn.part] at hs
      rw [List.append_assoc, List.length_append, Nat.add_assoc, past hn'.part]
      exact ih.1 hs
    · obtain ⟨c, more, rfl, hc, hmore⟩ := hn.cons
      obtain ⟨c', more', rfl, hc', hmore'⟩ := hn'.cons
      have hline {c : Char} (hc : Token.isNameStart c) : c ≠ '\n' :=
        Token.isNamePart_ne (Token.isNamePart_of_isNameStart hc) (by decide)
      have hlen (c : Char) (l m : List Char) :
          (c :: l ++ m).length + 2 = 2 + (l.length + (m.length + 1)) := by
        simp only [List.length_append, List.length_cons]
        omega
      intro hs
      rw [hlen, List.append_assoc, List.cons_append, escaped (hline hc), Token.after_eq rfl,
        past hmore] at hs
      rw [hlen, List.append_assoc, List.cons_append, escaped (hline hc'),
        Token.after_eq rfl, past hmore']
      exact ih.1 hs

/-- A text that is not blank does not get blank. -/
theorem exists_not_blank (h : Reworded inside a b) (ha : ∃ c ∈ a, Text.isBlank c = false) :
    ∃ c ∈ b, Text.isBlank c = false := by
  induction h with
  | nil => exact ha
  | @keep inside a b c _ ih =>
    obtain ⟨d, hd, hblank⟩ := ha
    rcases List.mem_cons.mp hd with rfl | hd
    · exact ⟨d, List.mem_cons_self, hblank⟩
    · obtain ⟨e, he, hblank⟩ := ih ⟨d, hd, hblank⟩
      exact ⟨e, List.mem_cons_of_mem c he, hblank⟩
  | @name _ name' _ b _ hn' _ _ _ =>
    obtain ⟨c, more, rfl, hc, -⟩ := hn'.cons
    exact ⟨c, List.mem_cons_self, Token.isBlank_of_isLetter
      (Token.isLetter_of_isNamePart (Token.isNamePart_of_isNameStart hc))⟩

end Reworded

end TagExpr
