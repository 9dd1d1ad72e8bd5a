import TagExpr.Proofs.Climbing.Lexing
import TagExpr.Proofs.Parse.Grouping
import TagExpr.Proofs.Placing.Interpolation
import TagExpr.Proofs.Token.Integers
import TagExpr.Value.Text

/-!
# Integers read back

The text of an integer is a literal in base ten, with a sign in front of it if the integer is
negative. Such a text is parsed to the integer (`integers_read_back`), but for the least one: its
digits are out of range before the sign can be folded into them.
-/

namespace TagExpr

open Climbing (Radix)
open Parse Token

variable {ε : Type} {radix : Radix} {digits suffix : List Char}

/-! ## Texts of integers -/

/-- The sign in front of a literal. -/
def signOf (negative : Bool) : List Char := if negative then ['-'] else []

/-- The text of a literal with a sign in front of it. -/
def integerText (negative : Bool) (radix : Radix) (digits suffix : List Char) : String :=
  String.ofList (signOf negative ++ literalOf radix digits suffix)

/-- The integer of a literal with a sign in front of it. -/
def signedOf (negative : Bool) (value : Nat) : Int64 :=
  if negative then - Int64.ofNat value else Int64.ofNat value

theorem ofNat_ne_minValue {n : Nat} (h : n ≤ maxInt) : Int64.ofNat n ≠ Int64.minValue := by
  intro heq
  have hlt : n < 2 ^ 63 := Nat.lt_of_le_pred (by decide) h
  have hvalue := congrArg Int64.toInt heq
  rw [Int64.toInt_ofNat_of_lt hlt, Int64.toInt_minValue] at hvalue
  omega

/-- Every integer but the least one is its digits with its sign, and the digits are in range. -/
theorem signedOf_natAbs {v : Int64} (h : v ≠ Int64.minValue) :
    v.toInt.natAbs ≤ maxInt ∧ signedOf (v.toInt < 0) v.toInt.natAbs = v := by
  have hle := v.toInt_le
  have hge := v.minValue_le_toInt
  have hne : v.toInt ≠ -2 ^ 63 := by
    intro heq
    exact h (Int64.toInt_inj.mp (heq.trans Int64.toInt_minValue.symm))
  have hmax : maxInt = 2 ^ 63 - 1 := rfl
  rw [Int64.toInt_minValue] at hge
  rw [Int64.toInt_maxValue] at hle
  refine ⟨by omega, ?_⟩
  unfold signedOf
  by_cases hneg : v.toInt < 0
  · have heq : -(v.toInt.natAbs : Int) = v.toInt := by omega
    rw [if_pos (by simpa using hneg), Int64.neg_ofNat, heq, Int64.ofInt_toInt]
  · have heq : (v.toInt.natAbs : Int) = v.toInt := by omega
    rw [if_neg (by simpa using hneg), ← Int64.ofInt_eq_ofNat, heq, Int64.ofInt_toInt]

namespace Parse

theorem next_sign (offset : Nat) (rest : List Char) :
    Token.next .operand ⟨offset, '-' :: rest⟩ =
      .ok (⟨.operator "-", Span.ofRange offset (offset + 1)⟩, ⟨offset + 1, rest⟩) := rfl

/-- A text that is an integer is no definition. -/
theorem definitionOf?_integer (h : IsInteger radix digits suffix) (extensions : Extensions)
    (negative : Bool) :
    definitionOf? extensions (integerText negative radix digits suffix) = none := by
  rw [definitionOf?_eq_none, integerText, String.toList_ofList]
  intro _
  refine Climbing.definition?_of_name? ?_
  cases negative with
  | true => rfl
  | false =>
    obtain ⟨first, more, hcons, hfirst⟩ := h.head_literal []
    have hsep := isSeparator_of_isNamePart (isNamePart_of_isDigit hfirst)
    rw [List.append_nil] at hcons
    rw [signOf, if_neg Bool.false_ne_true, List.nil_append, hcons]
    simp [Signature.name?, Signature.skipSeparators, Cursor.skipWhile, Cursor.start, hsep,
      nameLength, isNameStart_of_isDigit hfirst]

/-! ## The run -/

section Run

variable {b : Bench ε} {value : Int64} {span : Span}

theorem next_literal (h : IsInteger radix digits suffix) (offset : Nat) :
    Token.next .operand ⟨offset, literalOf radix digits suffix⟩ =
      take ⟨offset, literalOf radix digits suffix⟩ (literalOf radix digits suffix).length
        (integerOf (digitsValue radix.base digits)) := by
  have hbest := h.best numberEnds_nil
  rw [List.append_nil] at hbest
  exact h.next_eq hbest .nil offset

/-- The literal is taken up, and the text is at its end. -/
theorem ends_literal (h : IsInteger radix digits suffix)
    (hle : digitsValue radix.base digits ≤ maxInt) {fuel base offset : Nat}
    {Q : Operand → Bench ε → Prop} {E : ParseError → Bench ε → Prop}
    (hQ : ∀ o : Operand, ∀ after,
      o.node = .literal (.int (.ofNat (digitsValue radix.base digits))) →
      o.type = .integral → o.binds = false → after.rest = [] →
      Ends (rounds fuel .operator base after) { b with operands := b.operands.push o } Q E) :
    Ends (rounds (fuel + 1) .operand base ⟨offset, literalOf radix digits suffix⟩) b Q E := by
  have hnext := next_literal h offset
  rw [integerOf, if_pos hle, take] at hnext
  rw [rounds_operand hnext]
  simp only [operand, ends_bind, ends_pushOperand, ends_pure]
  exact hQ _ _ rfl rfl rfl (by simp [Cursor.advance])

/-- A literal whose value is out of range fails the run, from its first to its last character. -/
theorem ends_literal_error (h : IsInteger radix digits suffix)
    (hgt : maxInt < digitsValue radix.base digits) {fuel base offset : Nat} :
    Ends (rounds (fuel + 1) .operand base ⟨offset, literalOf radix digits suffix⟩) b
      (fun _ _ => False)
      (fun e b' => b' = b ∧ e = .ofLex ⟨.intOutOfRange,
        Span.ofRange offset (offset + byteLength (literalOf radix digits suffix))⟩ base) := by
  have hnext := next_literal h offset
  rw [integerOf, if_neg (by omega), take] at hnext
  rw [rounds, ends_bind, ends_readToken, hnext]
  refine ⟨rfl, ?_⟩
  simp [spanOf, Cursor.advance]

theorem foldSign?_negate {value : Int64} (h : value ≠ Int64.minValue) :
    foldSign? .negate (.literal (.int value)) = some (.int (-value)) := by
  simp [foldSign?, h]

/-- At the end of the text the sign is folded into the integer. -/
theorem ends_negated {o : Operand} {value : Int64} (hvalue : value ≠ Int64.minValue)
    (hnode : o.node = .literal (.int value)) (htype : o.type = .integral) {p : Pending}
    (hp : p.op.kind = .unary .negate) {fuel base : Nat} {after : Cursor} (hafter : after.rest = [])
    (hoperands : b.operands = ⟨[o]⟩) (hoperators : b.operators = ⟨[p]⟩)
    {E : ParseError → Bench ε → Prop} :
    Ends (rounds (fuel + 1) .operator base after) b
      (fun o' b' => o'.node = .literal (.int (-value)) ∧ o'.type = .integral ∧ o'.binds = false ∧
        b'.scope = b.scope ∧ b'.tables = b.tables) E := by
  have hnext : Token.next .operator after = .ok (⟨.finish, Span.point after.offset⟩, after) := by
    obtain ⟨offset, rest⟩ := after
    obtain rfl : rest = [] := hafter
    rfl
  have hpair : o.isPair = false := by simp [Operand.isPair, htype]
  unfold rounds
  rw [ends_bind, ends_readToken, hnext]
  simp only [finish, reduceWhile, applyWhile, apply, applyUnary, hp, if_true, ends_bind, ends_get,
    hoperators, ends_modify]
  have hfloor : floorOf ({ b with operators := ⟨[]⟩ } : Bench ε).operators.toList ≤
      ([] : List Operand).length :=
    Nat.le_refl 0
  rw [ends_popValue (b := { b with operators := ⟨[]⟩ }) hoperands hfloor, if_neg (by simp [hpair]),
    ends_reject, if_neg (by simp [htype]), hnode, foldSign?_negate hvalue, ends_pushOperand]
  have hfolded : (Operand.literal (.int (-value)) o.type (p.span.merge o.span)).isPair = false := by
    rw [htype]
    rfl
  simp only [ends_pure, Stack.push, hfolded, Bool.false_eq_true, if_false]
  exact ⟨rfl, htype, rfl, trivial, trivial⟩

/-- A sign in front of a literal waits for it. -/
theorem rounds_sign (fuel base : Nat) (rest : List Char) (scope : TemplateScope ε)
    {Q : Operand → Bench ε → Prop} {E : ParseError → Bench ε → Prop}
    (hQ : ∀ p : Pending, p.op.kind = .unary .negate →
      Ends (rounds fuel .operand base ⟨1, rest⟩) { scope, tables := {}, operators := ⟨[p]⟩ } Q E) :
    Ends (rounds (fuel + 1) .operand base (Cursor.start ('-' :: rest))) { scope, tables := {} }
      Q E := by
  have hprefix : Operator.findPrefix? "-" = some UnaryOp.negate.entry :=
    UnaryOp.negate.findPrefix?_entry
  have hcloser : Operator.closers.contains "-" = false := rfl
  rw [Cursor.start, rounds_operand (next_sign 0 rest)]
  simp only [operand, hcloser, hprefix, Bool.false_eq_true, if_false, ends_bind, ends_pushOperator,
    ends_pure]
  exact hQ _ UnaryOp.negate.kind_entry

/-- The run on a literal with a sign in front of it ends with the integer. -/
theorem ends_integer (h : IsInteger radix digits suffix)
    (hle : digitsValue radix.base digits ≤ maxInt) (negative : Bool) (fuel base : Nat)
    (scope : TemplateScope ε) :
    Ends (rounds (fuel + 2 + (signOf negative).length) .operand base
        (Cursor.start (signOf negative ++ literalOf radix digits suffix))) { scope, tables := {} }
      (fun o b => o.node = .literal (.int (signedOf negative (digitsValue radix.base digits))) ∧
        o.type = .integral ∧ o.binds = false ∧ b.scope = scope ∧ b.tables = {})
      (fun _ _ => False) := by
  cases negative with
  | false =>
    refine ends_literal h hle fun o after hnode htype hbinds hafter => ?_
    refine ends_rounds_end hafter ?_ rfl rfl ⟨hnode, htype, hbinds, rfl, rfl⟩
    simp [Operand.isPair, htype]
  | true =>
    have hmin := ofNat_ne_minValue hle
    refine rounds_sign (fuel + 2) base _ scope fun p hp => ?_
    refine ends_literal h hle fun o after hnode htype hbinds hafter => ?_
    exact ends_negated hmin hnode htype hp hafter rfl rfl

/-- If the literal is out of range, the run fails on it. -/
theorem ends_integer_error (h : IsInteger radix digits suffix)
    (hgt : maxInt < digitsValue radix.base digits) (negative : Bool) (fuel base : Nat)
    (scope : TemplateScope ε) :
    Ends (rounds (fuel + 2 + (signOf negative).length) .operand base
        (Cursor.start (signOf negative ++ literalOf radix digits suffix))) { scope, tables := {} }
      (fun _ _ => False)
      (fun e b => b.scope = scope ∧ e = .ofLex ⟨.intOutOfRange,
        Span.ofRange (byteLength (signOf negative))
          (byteLength (signOf negative ++ literalOf radix digits suffix))⟩ base) := by
  rw [byteLength_append]
  cases negative with
  | false =>
    refine (ends_literal_error h hgt).mono (fun _ _ h => h) ?_
    rintro e b ⟨rfl, rfl⟩
    exact ⟨rfl, rfl⟩
  | true =>
    refine rounds_sign (fuel + 2) base _ scope fun p _ => ?_
    refine (ends_literal_error h hgt).mono (fun _ _ h => h) ?_
    rintro e b ⟨rfl, rfl⟩
    exact ⟨rfl, rfl⟩

end Run

/-! ## Whole texts -/

/-- The fuel of the run on an integer lasts for its sign, its literal and the end of the text. -/
theorem run_integer (h : IsInteger radix digits suffix) (negative : Bool) (offset : Nat)
    (scope : TemplateScope ε) :
    ∃ fuel, (Round.start scope {} offset
        (Cursor.start (integerText negative radix digits suffix).toList)).run =
      rounds (fuel + 2 + (signOf negative).length) .operand offset
        (Cursor.start (signOf negative ++ literalOf radix digits suffix))
          { scope, tables := {} } := by
  obtain ⟨first, more, hcons, -⟩ := h.head_literal []
  rw [List.append_nil] at hcons
  have hfuel : (signOf negative ++ literalOf radix digits suffix).length + 1 =
      more.length + 2 + (signOf negative).length := by
    rw [List.length_append, hcons, List.length_cons]
    omega
  refine ⟨more.length, ?_⟩
  rw [Round.run, Round.start, integerText, String.toList_ofList, ← hfuel]
  rfl

/-- A literal with a sign in front of it is parsed as the integer. -/
theorem parse_integer (h : IsInteger radix digits suffix)
    (hle : digitsValue radix.base digits ≤ maxInt) (negative : Bool) (offset : Nat)
    (scope : TemplateScope ε) :
    ∃ p, parse (integerText negative radix digits suffix) offset scope = (.ok p, scope) ∧
      p.node = .literal (.int (signedOf negative (digitsValue radix.base digits))) ∧
      p.type = .integral := by
  obtain ⟨fuel, hrun⟩ := run_integer h negative offset scope
  obtain ⟨o, b, ran, hnode, htype, hbinds, rfl, -⟩ :=
    (ends_integer h hle negative fuel offset scope).exists_ok
  rw [parse_of_no_definition (definitionOf?_integer h _ negative), hrun, ran]
  exact ⟨_, rfl, hnode, htype⟩

/-- A literal that is out of range fails from its first to its last character, also with a sign in
front of it. -/
theorem parse_integer_error (h : IsInteger radix digits suffix)
    (hgt : maxInt < digitsValue radix.base digits) (negative : Bool) (offset : Nat)
    (scope : TemplateScope ε) :
    parse (integerText negative radix digits suffix) offset scope =
      (.error (.ofLex ⟨.intOutOfRange, Span.ofRange (byteLength (signOf negative))
        (byteLength (signOf negative ++ literalOf radix digits suffix))⟩ offset), scope) := by
  obtain ⟨fuel, hrun⟩ := run_integer h negative offset scope
  have hends := ends_integer_error h hgt negative fuel offset scope
  rw [parse_of_no_definition (definitionOf?_integer h _ negative), hrun]
  cases ran : rounds (fuel + 2 + (signOf negative).length) .operand offset
      (Cursor.start (signOf negative ++ literalOf radix digits suffix)) { scope, tables := {} } with
  | ok o b => exact (hends.ok ran).elim
  | error e b =>
    obtain ⟨rfl, rfl⟩ := hends.error ran
    rfl

end Parse

/-! ## Texts of values -/

/-- The text of an integer is the literal of its digits, with its sign. -/
theorem display_int (h : Host) (v : Int64) (suffix : String) :
    (Value.int v).display h ++ suffix =
      integerText (v.toInt < 0) .decimal (Nat.toDigits 10 v.toInt.natAbs) suffix.toList := by
  have hdisplay : (Value.int v).display h = v.toInt.repr := by
    rw [Value.display]
    rfl
  rw [hdisplay, ← String.toList_inj, integerText, String.toList_ofList, String.toList_append]
  cases v.toInt with
  | ofNat n =>
    have hneg : decide (Int.ofNat n < 0) = false :=
      decide_eq_false (Int.not_lt.mpr (Int.natCast_nonneg n))
    rw [hneg]
    show n.repr.toList ++ _ = _
    rw [Nat.toList_repr]
    rfl
  | negSucc n =>
    have hneg : decide (Int.negSucc n < 0) = true := decide_eq_true (Int.negSucc_lt_zero n)
    rw [hneg]
    show ("-" ++ (n + 1).repr).toList ++ _ = _
    rw [String.toList_append, Nat.toList_repr]
    rfl

/-- The value of an integer that is not negative is in range and makes the integer. -/
theorem integerOf_toNat {v : Int64} (h : 0 ≤ v) : integerOf v.toInt.toNat = .ok (.int v) := by
  have hnonneg : 0 ≤ v.toInt := by simpa using Int64.le_iff_toInt_le.mp h
  have hle := v.toInt_le
  rw [Int64.toInt_maxValue] at hle
  have hmax : maxInt = 2 ^ 63 - 1 := rfl
  have hcast : (v.toInt.toNat : Int) = v.toInt := Int.toNat_of_nonneg hnonneg
  rw [integerOf, if_pos (by omega), ← Int64.ofInt_eq_ofNat, hcast, Int64.ofInt_toInt]

/-- **Integers read back as written.** Every integer but the least one is parsed from its text, with
or without a suffix, whatever its sign; the digits of base sixteen of an integer that is not
negative are read as that integer, in capital and in small letters; zeros in front of the digits
change nothing. A literal whose value is out of range is at fault from its first to its last
character, wherever it stands, and a text that is such a literal fails there, with or without a
sign. A literal is one token wherever it is the longest lexeme, as it is before all that does not go
on with it. -/
theorem integers_read_back (h : Host) (offset : Nat) (scope : TemplateScope ε) :
    (∀ v : Int64, v ≠ Int64.minValue → ∀ suffix ∈ ["", "l", "L"], ∃ p,
      parse ((Value.int v).display h ++ suffix) offset scope = (.ok p, scope) ∧
        p.node = .literal (.int v) ∧ p.type = .integral) ∧
    (∀ (v : Int64) (upper : Bool) (digits suffix : List Char), 0 ≤ v →
      digits.map Char.toLower = Nat.toDigits 16 v.toInt.toNat →
      IsInteger (.hexadecimal upper) digits suffix → ∀ count,
        IsRead (.hexadecimal upper) (List.replicate count '0' ++ digits) suffix (.ok (.int v))) ∧
    (∀ (radix : Radix) (digits suffix : List Char), IsInteger radix digits suffix → ∀ count,
      IsRead radix (List.replicate count '0' ++ digits) suffix
        (integerOf (digitsValue radix.base digits)) ∧
      ∀ negative,
        let text := integerText negative radix (List.replicate count '0' ++ digits) suffix
        if digitsValue radix.base digits ≤ maxInt then
          ∃ p, parse text offset scope = (.ok p, scope) ∧
            p.node = .literal (.int (signedOf negative (digitsValue radix.base digits))) ∧
            p.type = .integral
        else
          parse text offset scope = (.error (.ofLex ⟨.intOutOfRange,
            Span.ofRange (byteLength (signOf negative)) (byteLength text.toList)⟩ offset), scope)) ∧
    (∀ (radix : Radix) (digits suffix rest : List Char), IsInteger radix digits suffix →
      NumberEnds rest →
        Best (literalOf radix digits suffix ++ rest) (integerClass radix)
          (literalOf radix digits suffix)) := by
  refine ⟨?_, ?_, ?_, fun _ _ _ _ hinteger hrest => hinteger.best hrest⟩
  · intro v hv suffix hsuffix
    obtain ⟨hle, hsigned⟩ := signedOf_natAbs hv
    have hinteger : IsInteger .decimal (Nat.toDigits 10 v.toInt.natAbs) suffix.toList := by
      refine isInteger_toDigits _ ?_
      simp only [List.mem_cons, List.not_mem_nil, or_false] at hsuffix
      rcases hsuffix with rfl | rfl | rfl <;> simp
    have hvalue : digitsValue 10 (Nat.toDigits 10 v.toInt.natAbs) = v.toInt.natAbs :=
      digitsValue_toDigits (by decide) (by decide) _
    have hparse :=
      parse_integer hinteger (by rw [Radix.base, hvalue]; exact hle) (v.toInt < 0) offset
      scope
    rw [display_int]
    rwa [Radix.base, hvalue, hsigned] at hparse
  · intro v upper digits suffix hv hdigits hinteger count
    have hvalue : digitsValue 16 (List.replicate count '0' ++ digits) = v.toInt.toNat := by
      rw [digitsValue_zeros, ← digitsValue_toLower hinteger.digital, hdigits]
      exact digitsValue_toDigits (by decide) (by decide) _
    have hread := (hinteger.zeros count).isRead
    rwa [Radix.base, hvalue, integerOf_toNat hv] at hread
  · intro radix digits suffix hinteger count
    have hzeros := hinteger.zeros count
    have hvalue := digitsValue_zeros radix.base count digits
    refine ⟨hvalue ▸ hzeros.isRead, fun negative => ?_⟩
    dsimp only
    rw [← hvalue]
    split
    case isTrue hle => exact parse_integer hzeros hle negative offset scope
    case isFalse hgt =>
      rw [parse_integer_error hzeros (by omega), integerText, String.toList_ofList]

/-- `-42L` is an integer, `0X00fF` is another before a plus, and one more than the largest integer
is at fault from its first to its last digit. -/
theorem integers_read_back_of_examples :
    ((-42 : Int64) ≠ Int64.minValue ∧ ∃ p : Parsed Nat,
      parse ((Value.int (-42)).display {} ++ "L") 7 .fresh = (.ok p, .fresh) ∧
        p.node = .literal (.int (-42)) ∧ p.type = .integral) ∧
    at? .operand "1 + 0X00fF+ 2".toList 4 = .ok ⟨.int 255, Span.ofRange 4 10⟩ ∧
    parse (ε := Nat) "-09223372036854775808" 7 .fresh =
      (.error (.ofLex ⟨.intOutOfRange, Span.ofRange 1 21⟩ 7), .fresh) := by
  obtain ⟨hdisplay, hhex, hall, hbest⟩ := integers_read_back (ε := Nat) {} 7 .fresh
  refine ⟨⟨by decide, hdisplay (-42) (by decide) "L" (by simp)⟩, ?_, ?_⟩
  · have hinteger : IsInteger (.hexadecimal true) "fF".toList [] :=
      ⟨by simp, List.all_eq_true.mp (by decide), .inl rfl⟩
    have hends : NumberEnds "+ 2".toList := by
      rintro c more heq
      obtain ⟨rfl, rfl⟩ := List.cons.inj heq
      exact ⟨rfl, nofun⟩
    have hlongest := hbest _ _ _ _ (hinteger.zeros 2) hends
    exact hhex 255 true _ _ (by decide) (by decide) hinteger 2 "1 + ".toList [] _ .nil hlongest
  · have hinteger : IsInteger .decimal "9223372036854775808".toList [] :=
      ⟨by simp, List.all_eq_true.mp (by decide), .inl rfl⟩
    have hparse := (hall _ _ _ hinteger 1).2 true
    rwa [if_neg (by decide)] at hparse

/-- The text of the least integer is no integer: its digits are out of range. -/
theorem least_integer_is_out_of_range :
    ¬ ∀ v : Int64, ∃ p : Parsed Nat,
      (parse ((Value.int v).display {}) 0 .fresh).1 = .ok p ∧ p.node = .literal (.int v) := by
  intro reads
  obtain ⟨p, hparse, -⟩ := reads Int64.minValue
  have hinteger : IsInteger .decimal (Nat.toDigits 10 Int64.minValue.toInt.natAbs) [] :=
    isInteger_toDigits _ (.inl rfl)
  have htext := display_int {} Int64.minValue ""
  have hout : maxInt < digitsValue 10 (Nat.toDigits 10 Int64.minValue.toInt.natAbs) := by
    rw [digitsValue_toDigits (by decide) (by decide)]
    decide
  have herror := parse_integer_error (ε := Nat) hinteger hout (Int64.minValue.toInt < 0) 0 .fresh
  rw [String.append_empty] at htext
  rw [htext, String.toList_empty, herror] at hparse
  cases hparse

end TagExpr
