import TagExpr.Proofs.Climbing.Simulation
import TagExpr.Proofs.Climbing.Ternary

/-!
# Runs over lexemes

A text that is given by its lexemes, with a space between two of them, is parsed lexeme by lexeme.
`Ending` says how the run over what is left of such a text ends; neither the place in the text nor
the fuel appears in it.
-/

namespace TagExpr.Climbing

open Parse Token

/-! ## Where a text goes on -/

/-- The lexemes are left of the text, the first of them perhaps after a gap. -/
def Faces (at_ : Cursor) : List String → Prop
  | [] => at_.rest = []
  | l :: lexemes => ∃ gap, (∀ c ∈ gap, Text.isSeparator c) ∧
    at_.rest = gap ++ (l.toList ++ spaced lexemes)

variable {at_ : Cursor} {l : String} {lexemes : List String}

theorem faces_of_spaced (h : at_.rest = spaced lexemes) : Faces at_ lexemes := by
  cases lexemes with
  | nil => exact h
  | cons l lexemes => exact ⟨[' '], by simp; rfl, h⟩

/-- The text of the lexemes begins with the first of them. -/
theorem toList_textOf (l : String) (lexemes : List String) :
    (textOf (l :: lexemes)).toList = l.toList ++ spaced lexemes :=
  (List.cons.inj (cons_intercalate (List.cons_ne_nil l lexemes))).2

theorem faces_text (hne : lexemes ≠ []) : Faces (Cursor.start (textOf lexemes).toList) lexemes := by
  obtain ⟨l, lexemes, rfl⟩ := List.exists_cons_of_ne_nil hne
  exact ⟨[], by simp, toList_textOf l lexemes⟩

/-- Before the lexemes that follow it, the lexeme is read as a token of the kind. -/
def Lexes (mode : LexMode) (l : String) (kind : TokenKind) (lexemes : List String) : Prop :=
  ∀ at_, Faces at_ (l :: lexemes) →
    ∃ span at', next mode at_ = .ok (⟨kind, span⟩, at') ∧ at'.rest = spaced lexemes

theorem lexes_atom (a : Atom) (lexemes : List String) :
    Lexes .operand (String.ofList a.lexeme) a.token lexemes := by
  rintro at_ ⟨gap, hgap, hat⟩
  rw [String.toList_ofList] at hat
  exact next_atom a hat hgap (breaks_spaced lexemes)

theorem lexes_binary (op : BinaryOp) (l : String) (lexemes : List String) :
    Lexes .operator op.symbol (.operator op.symbol) (l :: lexemes) := by
  rintro at_ ⟨gap, hgap, hat⟩
  exact next_binary op hat hgap

theorem lexes_bracket (b : Bracket) (lexemes : List String) :
    Lexes .operand b.opener (.operator b.opener) lexemes := by
  rintro at_ ⟨gap, hgap, hat⟩
  have hs : Starts (b.opener.toList ++ spaced lexemes) := by
    intro offset
    cases b <;> rfl
  have hne : b.opener.toList ≠ [] := by cases b <;> simp [Bracket.opener, Bracket.row]
  have hclass : longestClass? (b.opener.toList ++ spaced lexemes) =
      some (.symbol, b.opener.toList.length) := by
    cases lexemes <;> cases b <;> rfl
  refine next_of_class hat hgap hs hne hclass ?_
  simp [OperandClass.token]

/-- The symbols between and behind the arms. -/
def marks : List String := ["?", ":", ",", "]", "\x7d"]

theorem lexes_mark (hl : l ∈ marks) (lexemes : List String) :
    Lexes .operator l (if l = "," then .comma else .operator l) lexemes := by
  rintro at_ ⟨gap, hgap, hat⟩
  have hs : Starts (l.toList ++ spaced lexemes) := by
    intro offset
    simp only [marks, List.mem_cons, List.not_mem_nil, or_false] at hl
    rcases hl with rfl | rfl | rfl | rfl | rfl <;> rfl
  have hne : l.toList ≠ [] := by
    simp only [marks, List.mem_cons, List.not_mem_nil, or_false] at hl
    rcases hl with rfl | rfl | rfl | rfl | rfl <;> simp
  refine next_of_symbol hat hgap hs hne ?_
  simp only [marks, List.mem_cons, List.not_mem_nil, or_false] at hl
  cases lexemes with
  | nil => rcases hl with rfl | rfl | rfl | rfl | rfl <;> rfl
  | cons next lexemes => rcases hl with rfl | rfl | rfl | rfl | rfl <;> rfl

/-! ## Runs -/

variable {ε : Type}

/-- From the bench the run over the lexemes ends as `Q` and `E` say. -/
def Ending (base : Nat) (mode : LexMode) (lexemes : List String) (b : Bench ε)
    (Q : Operand → Bench ε → Prop) (E : ParseError → Bench ε → Prop) : Prop :=
  ∀ fuel at_, Faces at_ lexemes → at_.rest.length < fuel →
    Ends (rounds fuel mode base at_) b Q E

variable {base : Nat} {b : Bench ε} {Q : Operand → Bench ε → Prop}
  {E : ParseError → Bench ε → Prop}

/-- A lexeme takes one round, and the fuel lasts for the others. -/
theorem Lexes.round {mode : LexMode} {kind : TokenKind} (hl : Lexes mode l kind lexemes)
    (hk : kind ≠ .finish) (hat : Faces at_ (l :: lexemes)) {fuel : Nat}
    (hfuel : at_.rest.length < fuel) :
    ∃ more span at', fuel = more + 1 ∧ next mode at_ = .ok (⟨kind, span⟩, at') ∧
      Faces at' lexemes ∧ at'.rest.length < more := by
  obtain ⟨span, at', hnext, hrest⟩ := hl at_ hat
  have hlen := length_next hnext hk
  exact ⟨fuel - 1, span, at', by omega, hnext, faces_of_spaced hrest, by omega⟩

theorem ending_operand {kind : TokenKind} (hl : Lexes .operand l kind lexemes)
    (hk : kind ≠ .finish)
    (h : ∀ nested span, Ends (operand nested kind span) b
      (fun mode b' => Ending base mode lexemes b' Q E) E) :
    Ending base .operand (l :: lexemes) b Q E := by
  intro fuel at_ hat hfuel
  obtain ⟨more, span, at', rfl, hnext, hat', hmore⟩ := hl.round hk hat hfuel
  unfold rounds
  rw [ends_bind, ends_readToken, hnext]
  simp only
  rw [ends_bind]
  refine (h _ (span.shift base)).mono ?_ fun _ _ he => he
  intro mode b' hend
  exact hend more at' hat' hmore

/-- An operator symbol that takes nothing with it. -/
theorem ending_operator (hl : Lexes .operator l (.operator l) lexemes)
    (h : ∀ span at', Ends (operator l span base at') b
      (fun r b' => r.2 = at' ∧ Ending base r.1 lexemes b' Q E) E) :
    Ending base .operator (l :: lexemes) b Q E := by
  intro fuel at_ hat hfuel
  obtain ⟨more, span, at', rfl, hnext, hat', hmore⟩ := hl.round (by simp) hat hfuel
  unfold rounds
  rw [ends_bind, ends_readToken, hnext]
  simp only
  rw [ends_bind]
  refine (h (span.shift base) at').mono ?_ fun _ _ he => he
  rintro ⟨mode, after⟩ b' ⟨hafter, hend⟩
  obtain rfl : after = at' := hafter
  exact hend more after hat' hmore

theorem ending_comma
    (h : ∀ span, Ends (comma span) b (fun _ b' => Ending base .operand lexemes b' Q E) E) :
    Ending base .operator ("," :: lexemes) b Q E := by
  intro fuel at_ hat hfuel
  have hl : Lexes .operator "," .comma lexemes := lexes_mark (by decide) lexemes
  obtain ⟨more, span, at', rfl, hnext, hat', hmore⟩ := hl.round (by simp) hat hfuel
  unfold rounds
  rw [ends_bind, ends_readToken, hnext]
  simp only
  rw [ends_bind]
  refine (h (span.shift base)).mono ?_ fun _ _ he => he
  intro _ b' hend
  exact hend more at' hat' hmore

theorem ending_finish (h : ∀ span, Ends (finish span) b Q E) : Ending base .operator [] b Q E := by
  intro fuel at_ hat hfuel
  obtain ⟨span, at', hnext⟩ := next_end hat
  cases fuel with
  | zero => omega
  | succ fuel =>
    unfold rounds
    rw [ends_bind, ends_readToken, hnext]
    exact h (span.shift base)

end TagExpr.Climbing
