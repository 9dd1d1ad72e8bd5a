import TagExpr.Proofs.Parse.Words

/-!
# Question marks and colons of a text

The marks of a text are what its containers and ternaries are written with: openers, closers,
question marks and colons. As the words, they are read off the tokens alone, so marks in strings,
patterns and comments are no marks of the text; an interpolated source is a region of its own. A
text settles its marks if every question mark has its colon where its region ends.
-/

namespace TagExpr

inductive Mark where
  /-- The opener of a container, or of an interpolated source. -/
  | opens
  | closes
  | question
  | colon
  deriving DecidableEq

namespace Mark

/-! ## Reading marks -/

/-- The parenthesis of a call. -/
def ofWord : Word → List Mark
  | .name _ _ true | .annotated _ true | .member _ true => [opens]
  | _ => []

/-- An operator that waits for operands: a container opens a region. -/
def ofWaiting (kind : OpKind) : List Mark :=
  if kind.isContainer then [opens] else if kind = .ternary then [question] else []

/-- A part of a string literal. `nested` gives the marks of an interpolated source. -/
def ofSegment (nested : List Char → List Mark) : Literal.Segment → List Mark
  | .expression source _ => opens :: (nested source ++ [closes])
  | _ => []

/-- The marks of a token in operand position. -/
def ofOperand (extensions : Extensions) (nested : List Char → List Mark) : TokenKind → List Mark
  | .str raw doubleQuoted =>
    if doubleQuoted && extensions.interpolation then
      match Literal.split raw with
      | .ok parts => parts.flatMap (ofSegment nested)
      | .error _ => []
    else []
  | .ident i => ofWord (.ofIdent i)
  | .operator symbol =>
    if Operator.closers.contains symbol then [closes]
    else
      match Operator.findPrefix? symbol with
      | some op => ofWaiting op.kind
      | none => []
  | _ => []

/-- The marks of an operator symbol after an operand, with what it takes with it. -/
def ofOperator (symbol : String) (at_ : Cursor) : List Mark :=
  if Operator.closers.contains symbol then [closes]
  else
    match (Operator.findInfix? symbol).map Operator.kind with
    | some (.navigate _) => (operatorReach symbol at_).1.flatMap ofWord
    | some .colon => [colon]
    | some kind => ofWaiting kind
    | none => []

end Mark

/-- The marks from a place of a text to its end, of at most `fuel` tokens. -/
def marks (extensions : Extensions) : Nat → LexMode → Cursor → List Mark
  | 0, _, _ => []
  | fuel + 1, mode, at_ =>
    match Token.next mode at_ with
    | .error _ => []
    | .ok (token, after) =>
      match mode with
      | .operand =>
        let nested (source : List Char) : List Mark :=
          marks extensions fuel .operand (Cursor.start source)
        Mark.ofOperand extensions nested token.kind ++
          marks extensions fuel token.kind.modeAfter after
      | _ =>
        match token.kind with
        | .comma => marks extensions fuel .operand after
        | .operator symbol =>
          Mark.ofOperator symbol after ++
            marks extensions fuel (operatorReach symbol after).2.1 (operatorReach symbol after).2.2
        | _ => []

/-- The marks of the expression in a text. -/
def marksOf (extensions : Extensions) (text : String) : List Mark :=
  let at_ := bodyOf extensions text
  marks extensions (at_.rest.length + 1) .operand at_

namespace Mark

/-! ## Regions -/

/-- The marks directly inside a region, given what follows its opener: those at the given depth, up
to the closer that belongs to it. -/
def direct : Nat → List Mark → List Mark
  | _, [] => []
  | depth, opens :: ms => direct (depth + 1) ms
  | 0, closes :: _ => []
  | depth + 1, closes :: ms => direct depth ms
  | 0, m :: ms => m :: direct 0 ms
  | depth + 1, _ :: ms => direct (depth + 1) ms

/-- The marks directly inside each container. -/
def inner : List Mark → List (List Mark)
  | [] => []
  | opens :: ms => direct 0 ms :: inner ms
  | _ :: ms => inner ms

/-- The marks at top level and those directly inside each container. -/
def regions (ms : List Mark) : List (List Mark) := direct 0 ms :: inner ms

/-- In some region the question marks outnumber the colons. -/
def Outnumbered (ms : List Mark) : Prop :=
  ∃ region ∈ regions ms, region.count colon < region.count question

instance (ms : List Mark) : Decidable (Outnumbered ms) :=
  inferInstanceAs (Decidable (∃ region ∈ regions ms, region.count colon < region.count question))

/-! ## Counting -/

/-- Reads marks while the given numbers of question marks wait for their colons, in the innermost
region first. Where a region ends none may be left, and a colon with no question mark before it is
that of a map entry. -/
def Settles : List Nat → List Mark → Prop
  | [], _ => False
  | n :: counts, [] => n = 0 ∧ counts = []
  | n :: counts, opens :: ms => Settles (0 :: n :: counts) ms
  | n :: counts, closes :: ms => n = 0 ∧ Settles counts ms
  | n :: counts, question :: ms => Settles ((n + 1) :: counts) ms
  | n :: counts, colon :: ms => Settles ((n - 1) :: counts) ms

/-- Nothing is settled outside of all regions. -/
theorem not_settles_nil (ms : List Mark) : ¬ Settles [] ms := by
  cases ms <;> exact id

/-- In a region that is settled each waiting question mark and each question mark of the region has
a colon. -/
theorem Settles.direct_le {ms : List Mark} (inside : List Nat) {n : Nat} {counts : List Nat}
    (h : Settles (inside ++ n :: counts) ms) :
    n + (direct inside.length ms).count question ≤ (direct inside.length ms).count colon := by
  induction ms generalizing inside n with
  | nil =>
    cases inside with
    | nil =>
      obtain ⟨rfl, -⟩ := h
      simp [direct]
    | cons k inside => simp [Settles] at h
  | cons m ms ih =>
    cases inside with
    | nil =>
      cases m with
      | opens => exact ih [0] h
      | closes =>
        obtain ⟨rfl, -⟩ := h
        simp [direct]
      | question =>
        have hrest := ih [] h
        simp only [List.length_nil, direct, List.count_cons] at hrest ⊢
        simp
        omega
      | colon =>
        have hrest := ih [] h
        simp only [List.length_nil, direct, List.count_cons] at hrest ⊢
        simp
        omega
    | cons k inside =>
      cases m with
      | opens => exact ih (0 :: k :: inside) h
      | closes => exact ih inside h.2
      | question => exact ih ((k + 1) :: inside) h
      | colon => exact ih ((k - 1) :: inside) h

theorem Settles.inner_le {ms : List Mark} {counts : List Nat} (h : Settles counts ms) :
    ∀ region ∈ inner ms, region.count question ≤ region.count colon := by
  induction ms generalizing counts with
  | nil => simp [inner]
  | cons m ms ih =>
    cases counts with
    | nil => exact absurd h (not_settles_nil _)
    | cons n counts =>
      cases m with
      | opens =>
        have hregion : 0 + (direct 0 ms).count question ≤ (direct 0 ms).count colon :=
          direct_le [] h
        rw [Nat.zero_add] at hregion
        exact List.forall_mem_cons.mpr ⟨hregion, ih h⟩
      | closes => exact ih h.2
      | question | colon => exact ih h

/-- Nowhere in a settled text do the question marks outnumber the colons. -/
theorem Settles.not_outnumbered {ms : List Mark} (h : Settles [0] ms) : ¬ Outnumbered ms := by
  rintro ⟨region, hregion, hlt⟩
  have hle : region.count question ≤ region.count colon := by
    rcases List.mem_cons.mp hregion with rfl | hinner
    · have htop := direct_le [] h
      rwa [Nat.zero_add] at htop
    · exact h.inner_le region hinner
  omega

/-- Marks that are settled by themselves may stand in a region of their own. -/
theorem Settles.enclosed {ms more : List Mark} (inside : List Nat) {counts : List Nat} {n : Nat}
    (h : Settles (inside ++ [n]) ms) (hmore : Settles counts more) :
    Settles (inside ++ n :: counts) (ms ++ .closes :: more) := by
  induction ms generalizing inside n with
  | nil =>
    cases inside with
    | nil => exact ⟨h.1, hmore⟩
    | cons k inside => simp [Settles] at h
  | cons m ms ih =>
    cases inside with
    | nil =>
      cases m with
      | opens => exact ih [0] h
      | closes => exact absurd h.2 (not_settles_nil ms)
      | question => exact ih [] h
      | colon => exact ih [] h
    | cons k inside =>
      cases m with
      | opens => exact ih (0 :: k :: inside) h
      | closes => exact ⟨h.1, ih inside h.2⟩
      | question => exact ih ((k + 1) :: inside) h
      | colon => exact ih ((k - 1) :: inside) h

/-- Wherever they stand, the marks leave the counts as they are. -/
def Neutral (ms : List Mark) : Prop :=
  ∀ n counts more, Settles (n :: counts) more → Settles (n :: counts) (ms ++ more)

theorem neutral_nil : Neutral [] := fun _ _ _ hmore => hmore

theorem Neutral.append {ms ms' : List Mark} (h : Neutral ms) (h' : Neutral ms') :
    Neutral (ms ++ ms') := by
  intro n counts more hmore
  rw [List.append_assoc]
  exact h n counts _ (h' n counts more hmore)

theorem neutral_enclosed {ms : List Mark} (h : Settles [0] ms) :
    Neutral (opens :: (ms ++ [closes])) := by
  intro n counts more hmore
  rw [List.cons_append, List.append_assoc]
  exact Settles.enclosed [] h hmore

end Mark

end TagExpr
