import Mathlib.Computability.Language
import TagExpr.Proofs.Token.Letters

/-!
# Lengths that measure languages

The lexer finds lexemes by their lengths, a pattern says which texts are lexemes. A length measures
a language (`Measures`) if it is that of the longest member with which a text begins, whatever
follows it. Lengths that are put together measure what the languages are put together to, as long as
no part goes on where the next one begins (`Sharp`): so the longest lexeme is found without going
back.
-/

open scoped Computability

namespace TagExpr.Token

variable {f g : List Char → Nat} {L M N : Language Char} {text w rest : List Char}

/-! ## Languages -/

/-- One character that satisfies `p`. -/
def oneOf (p : Char → Bool) : Language Char := fun w => ∃ c, p c ∧ w = [c]

/-- One of the characters. -/
def among (letters : List Char) : Language Char := oneOf letters.contains

/-- One of the words. -/
def anyOf (words : List String) : Language Char := fun w => ∃ word ∈ words, w = word.toList

/-- One word. -/
def word (w : String) : Language Char := anyOf [w]

def optional (L : Language Char) : Language Char := 1 + L

def many1 (L : Language Char) : Language Char := L * L∗

theorem mem_oneOf {p : Char → Bool} : w ∈ oneOf p ↔ ∃ c, p c ∧ w = [c] := Iff.rfl

theorem mem_anyOf {words : List String} :
    w ∈ anyOf words ↔ ∃ word ∈ words, w = word.toList := Iff.rfl

theorem mem_word {s : String} : w ∈ word s ↔ w = s.toList := by
  rw [word, mem_anyOf]
  simp

theorem mem_among {letters : List Char} : w ∈ among letters ↔ ∃ c ∈ letters, w = [c] := by
  simp only [among, mem_oneOf, List.contains_iff_mem]

theorem nil_not_mem_among {letters : List Char} : [] ∉ among letters := by
  rintro ⟨c, -, h⟩
  cases h

theorem mem_optional : w ∈ optional L ↔ w = [] ∨ w ∈ L := Iff.rfl

theorem mem_star_oneOf {p : Char → Bool} : w ∈ (oneOf p)∗ ↔ ∀ c ∈ w, p c := by
  rw [Language.mem_kstar]
  constructor
  · rintro ⟨parts, rfl, hparts⟩ c hc
    obtain ⟨part, hpart, hc⟩ := List.mem_flatten.mp hc
    obtain ⟨d, hd, rfl⟩ := hparts part hpart
    rwa [List.mem_singleton.mp hc]
  · intro h
    refine ⟨w.map ([·]), (List.flatMap_singleton' w).symm, fun part hpart => ?_⟩
    obtain ⟨c, hc, rfl⟩ := List.mem_map.mp hpart
    exact ⟨c, h c hc, rfl⟩

theorem mem_many1_oneOf {p : Char → Bool} : w ∈ many1 (oneOf p) ↔ w ≠ [] ∧ ∀ c ∈ w, p c := by
  rw [many1, Language.mem_mul]
  constructor
  · rintro ⟨_, ⟨c, hc, rfl⟩, w, hw, rfl⟩
    exact ⟨by simp, by simpa [hc] using mem_star_oneOf.mp hw⟩
  · rintro ⟨hne, hw⟩
    obtain ⟨c, w, rfl⟩ := List.exists_cons_of_ne_nil hne
    exact ⟨[c], ⟨c, hw c (by simp), rfl⟩, w,
      mem_star_oneOf.mpr fun d hd => hw d (by simp [hd]), rfl⟩

theorem mem_star_word {s : String} :
    w ∈ (word s)∗ ↔ ∃ n, w = (List.replicate n s.toList).flatten := by
  rw [Language.mem_kstar]
  constructor
  · rintro ⟨parts, rfl, hparts⟩
    exact ⟨parts.length, congrArg List.flatten
      (List.eq_replicate_iff.mpr ⟨rfl, fun part hpart => mem_word.mp (hparts part hpart)⟩)⟩
  · rintro ⟨n, rfl⟩
    exact ⟨_, rfl, fun part hpart => mem_word.mpr (List.eq_of_mem_replicate hpart)⟩

theorem mem_many1_word {s : String} :
    w ∈ many1 (word s) ↔ ∃ n, w = (List.replicate (n + 1) s.toList).flatten := by
  rw [many1, Language.mem_mul]
  constructor
  · rintro ⟨_, hword, _, hstar, rfl⟩
    obtain ⟨n, rfl⟩ := mem_star_word.mp hstar
    exact ⟨n, by rw [mem_word.mp hword, List.replicate_succ, List.flatten_cons]⟩
  · rintro ⟨n, rfl⟩
    exact ⟨_, mem_word.mpr rfl, _, mem_star_word.mpr ⟨n, rfl⟩,
      by rw [List.replicate_succ, List.flatten_cons]⟩

/-! ## Lengths that measure languages -/

/-- The length is that of the longest member of the language with which a text begins. -/
structure Measures (f : List Char → Nat) (L : Language Char) : Prop where
  sound : ∀ text, 0 < f text → text.take (f text) ∈ L
  complete : ∀ w ∈ L, ∀ rest, w.length ≤ f (w ++ rest)

theorem Measures.congr (h : Measures f L) (hfg : ∀ text, g text = f text) : Measures g L :=
  funext hfg ▸ h

theorem measures_anyOf (words : List String) : Measures (symbolLength words) (anyOf words) where
  sound text h := ⟨_, mem_of_symbolLength h, String.toList_ofList.symm⟩
  complete := by
    rintro _ ⟨word, hmem, rfl⟩ rest
    rw [String.length_toList]
    exact le_symbolLength_iff.mpr (.inr ⟨word, hmem, List.prefix_append _ rest, Nat.le_refl _⟩)

theorem measures_among (letters : List Char) :
    Measures (suffixLength letters) (among letters) where
  sound text h := by
    cases text with
    | nil => cases h
    | cons c rest =>
      rw [suffixLength] at h ⊢
      split at h
      case isTrue hc => exact ⟨c, hc, by rw [if_pos hc]; rfl⟩
      case isFalse => cases h
  complete := by
    rintro _ ⟨c, hc, rfl⟩ rest
    exact Nat.le_of_eq (if_pos hc).symm

theorem measures_run (p : Char → Bool) :
    Measures (fun text => (text.takeWhile p).length) (many1 (oneOf p)) where
  sound text h := by
    rw [← List.prefix_iff_eq_take.mp (List.takeWhile_prefix p)]
    exact mem_many1_oneOf.mpr
      ⟨List.length_pos_iff.mp h, fun c hc => List.all_eq_true.mp List.all_takeWhile c hc⟩
  complete w hw rest := by
    rw [List.takeWhile_append_of_pos (mem_many1_oneOf.mp hw).2, List.length_append]
    omega

/-- A member of the first language ends where a member of the second begins. -/
def Sharp (f : List Char → Nat) (L M : Language Char) : Prop :=
  ∀ w ∈ L, ∀ m ∈ M, ∀ rest, f (w ++ (m ++ rest)) = w.length

theorem sharp_among {letters : List Char} : Sharp (suffixLength letters) (among letters) M := by
  rintro _ ⟨c, hc, rfl⟩ m - rest
  exact if_pos hc

theorem sharp_run {p : Char → Bool} (hM : ∀ m ∈ M, ∃ c more, m = c :: more ∧ p c = false) :
    Sharp (fun text => (text.takeWhile p).length) (many1 (oneOf p)) M := by
  intro w hw m hm rest
  obtain ⟨c, more, rfl, hc⟩ := hM m hm
  exact congrArg List.length (takeWhile_run (mem_many1_oneOf.mp hw).2 (by simpa using hc))

/-- Where the second of two parts ends, both do. -/
theorem Sharp.requires (hf : Sharp f L M) (hg : Sharp g M N) (hL : [] ∉ L) (hM : [] ∉ M) :
    Sharp (fun text => if f text = 0 then 0 else if g (text.drop (f text)) = 0 then 0
      else f text + g (text.drop (f text))) (L * M) N := by
  intro w hw m hm rest
  obtain ⟨a, ha, b, hb, rfl⟩ := Language.mem_mul.mp hw
  have hpos : 0 < a.length := List.length_pos_iff.mpr fun hnil => hL (hnil ▸ ha)
  have hpos' : 0 < b.length := List.length_pos_iff.mpr fun hnil => hM (hnil ▸ hb)
  have hexact := hf a ha b hb (m ++ rest)
  have hexact' := hg b hb m hm rest
  simp only [List.append_assoc, hexact, List.drop_left, hexact', List.length_append]
  rw [if_neg (by omega), if_neg (by omega)]

/-- A member of the first language, and then one of the second if there is one. -/
theorem Measures.needs (hf : Measures f L) (hg : Measures g M) (hsharp : Sharp f L M)
    (hL : [] ∉ L) :
    Measures (fun text => if f text = 0 then 0 else f text + g (text.drop (f text)))
      (L * optional M) where
  sound text h := by
    split at h
    case isTrue => cases h
    case isFalse hne =>
      rw [if_neg hne, List.take_add]
      refine Language.append_mem_mul (hf.sound text (Nat.pos_of_ne_zero hne)) ?_
      rcases Nat.eq_zero_or_pos (g (text.drop (f text))) with hzero | hpos
      · exact mem_optional.mpr (.inl (by rw [hzero]; rfl))
      · exact mem_optional.mpr (.inr (hg.sound _ hpos))
  complete := by
    intro w hw rest
    obtain ⟨a, ha, b, hb, rfl⟩ := Language.mem_mul.mp hw
    have hpos : 0 < a.length := List.length_pos_iff.mpr fun hnil => hL (hnil ▸ ha)
    rcases mem_optional.mp hb with rfl | hb
    · have hle := hf.complete a ha rest
      rw [List.append_nil, if_neg (by omega)]
      omega
    · have hexact := hsharp a ha b hb rest
      have hle := hg.complete b hb rest
      rw [List.append_assoc, hexact, if_neg (by omega), List.drop_left, List.length_append]
      omega

/-- Members of both languages, the second of which may not be missing. -/
theorem Measures.requires (hf : Measures f L) (hg : Measures g M) (hsharp : Sharp f L M)
    (hL : [] ∉ L) (hM : [] ∉ M) :
    Measures (fun text => if f text = 0 then 0 else if g (text.drop (f text)) = 0 then 0
      else f text + g (text.drop (f text))) (L * M) where
  sound text h := by
    split at h
    case isTrue => cases h
    case isFalse hne =>
      split at h
      case isTrue => cases h
      case isFalse hne' =>
        rw [if_neg hne, if_neg hne', List.take_add]
        exact Language.append_mem_mul (hf.sound text (Nat.pos_of_ne_zero hne))
          (hg.sound _ (Nat.pos_of_ne_zero hne'))
  complete := by
    intro w hw rest
    obtain ⟨a, ha, b, hb, rfl⟩ := Language.mem_mul.mp hw
    have hpos : 0 < a.length := List.length_pos_iff.mpr fun hnil => hL (hnil ▸ ha)
    have hpos' : 0 < b.length := List.length_pos_iff.mpr fun hnil => hM (hnil ▸ hb)
    have hexact := hsharp a ha b hb rest
    have hle := hg.complete b hb rest
    rw [List.append_assoc, hexact, if_neg (by omega), List.drop_left, if_neg (by omega),
      List.length_append]
    omega

/-- A member of the first language, with one of the second after it if there is one, or else one of
the second. -/
theorem Measures.either (hf : Measures f L) (hg : Measures g M) (hsharp : Sharp f (optional L) M) :
    Measures (fun text => f text + g (text.drop (f text))) (L * optional M + M) where
  sound text h := by
    rw [List.take_add]
    rcases Nat.eq_zero_or_pos (f text) with hzero | hpos
    · rw [hzero, List.drop_zero, List.take_zero, List.nil_append]
      refine .inr (hg.sound text ?_)
      rwa [hzero, List.drop_zero, Nat.zero_add] at h
    · refine .inl (Language.append_mem_mul (hf.sound text hpos) ?_)
      rcases Nat.eq_zero_or_pos (g (text.drop (f text))) with hzero | hpos
      · exact mem_optional.mpr (.inl (by rw [hzero]; rfl))
      · exact mem_optional.mpr (.inr (hg.sound _ hpos))
  complete := by
    have both {a b : List Char} (ha : a ∈ optional L) (hb : b ∈ M) (rest : List Char) :
        (a ++ b).length ≤ f (a ++ b ++ rest) + g ((a ++ b ++ rest).drop (f (a ++ b ++ rest))) := by
      have hexact := hsharp a ha b hb rest
      have hle := hg.complete b hb rest
      rw [List.append_assoc, hexact, List.drop_left, List.length_append]
      omega
    rintro w (hw | hw) rest
    · obtain ⟨a, ha, b, hb, rfl⟩ := Language.mem_mul.mp hw
      rcases mem_optional.mp hb with rfl | hb
      · have := hf.complete a ha rest
        rw [List.append_nil]
        omega
      · exact both (mem_optional.mpr (.inr ha)) hb rest
    · exact both (mem_optional.mpr (.inl rfl)) hw rest

/-- A fixed character, and then a member of the language. -/
theorem Measures.cons (hg : Measures g M) (c : Char) (hM : [] ∉ M)
    (hf : ∀ rest, f (c :: rest) = if g rest = 0 then 0 else 1 + g rest)
    (hother : ∀ text, (∀ rest, text ≠ c :: rest) → f text = 0) :
    Measures f (word (String.singleton c) * M) where
  sound text h := by
    by_cases htext : ∃ rest, text = c :: rest
    · obtain ⟨rest, rfl⟩ := htext
      rw [hf] at h ⊢
      split at h
      case isTrue => cases h
      case isFalse hne =>
        rw [if_neg hne, Nat.add_comm, List.take_succ_cons]
        exact Language.mem_mul.mpr
          ⟨[c], mem_word.mpr (by simp), _, hg.sound rest (Nat.pos_of_ne_zero hne), rfl⟩
    · rw [hother text fun rest heq => htext ⟨rest, heq⟩] at h
      cases h
  complete := by
    intro w hw rest
    obtain ⟨a, ha, b, hb, rfl⟩ := Language.mem_mul.mp hw
    have hpos : 0 < b.length := List.length_pos_iff.mpr fun hnil => hM (hnil ▸ hb)
    have hle := hg.complete b hb rest
    obtain rfl : a = [c] := by simpa using mem_word.mp ha
    rw [List.singleton_append, List.cons_append, hf, if_neg (by omega), List.length_cons]
    omega

end TagExpr.Token
