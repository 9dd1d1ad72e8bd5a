import TagExpr.Operator
import TagExpr.Parse.Parser
import TagExpr.Proofs.Token.Places
import TagExpr.Proofs.Token.Spelling

/-!
# Every symbol has an entry

In operator position the lexer has a list of symbols of its own. It is the list of the operator
table's tokens, with the closers and the comma (`operatorSymbols_eq`), and of those that a text
begins with the longest is read (`read_munches`).

The parser looks a symbol up that the lexer has read, in the table of what may follow an operand or
of what may begin one. Only texts are parsed, so the symbol is always found, or is a closer, which
is asked for before: what the parser does with any other symbol does not matter (`wholeOr_eq`).
-/

namespace TagExpr

/-- What may follow an operand: the tokens of the operator table, the closers and the comma. -/
def Operator.tokens : List String :=
  Operator.infixTable.map (·.symbol) ++ Operator.closers ++ [","]

/-- The table has a row for the symbol, or it ends a region. -/
def Operator.Follows (symbol : String) : Prop :=
  symbol ∈ Operator.closers ∨ (Operator.findInfix? symbol).isSome

/-- The same where an operand is expected. -/
def Operator.Begins (symbol : String) : Prop :=
  symbol ∈ Operator.closers ∨ (Operator.findPrefix? symbol).isSome

instance (symbol : String) : Decidable (Operator.Follows symbol) :=
  inferInstanceAs (Decidable (_ ∨ _))

instance (symbol : String) : Decidable (Operator.Begins symbol) :=
  inferInstanceAs (Decidable (_ ∨ _))

namespace Token

variable {symbols : List String} {text tail : List Char} {symbol : String} {at_ : Cursor}

/-- The symbol is the longest of the symbols with which the text begins. -/
structure Munches (symbols : List String) (text : List Char) (symbol : String) : Prop where
  mem : symbol ∈ symbols
  head : symbol.toList <+: text
  longest : ∀ other ∈ symbols, other.toList <+: text → other.length ≤ symbol.length

theorem Munches.length (h : Munches symbols text symbol) :
    symbolLength symbols text = symbol.length := by
  refine Nat.le_antisymm ?_ (le_symbolLength_iff.mpr (.inr ⟨symbol, h.mem, h.head, Nat.le_refl _⟩))
  rcases le_symbolLength_iff.mp (Nat.le_refl (symbolLength symbols text)) with
    hzero | ⟨other, hmem, hhead, hle⟩
  · omega
  · exact Nat.le_trans hle (h.longest other hmem hhead)

theorem Munches.take (h : Munches symbols text symbol) :
    text.take symbol.length = symbol.toList := by
  rw [← String.length_toList]
  exact (List.prefix_iff_eq_take.mp h.head).symm

/-- Where a symbol stands, a longest one does. -/
theorem exists_munches (hmem : symbol ∈ symbols) (hhead : symbol.toList <+: text) :
    ∃ longest, Munches symbols text longest := by
  obtain hzero | ⟨longest, hlongest, hprefix, hle⟩ :=
    le_symbolLength_iff.mp (Nat.le_refl (symbolLength symbols text))
  · refine ⟨symbol, hmem, hhead, fun other hother hprefix => ?_⟩
    have := le_symbolLength_iff.mpr (.inr ⟨other, hother, hprefix, Nat.le_refl _⟩)
    omega
  · refine ⟨longest, hlongest, hprefix, fun other hother hprefix => ?_⟩
    have := le_symbolLength_iff.mpr (.inr ⟨other, hother, hprefix, Nat.le_refl _⟩)
    omega

/-! ## The list of the lexer and the table -/

theorem operatorSymbols_eq : operatorSymbols = Operator.tokens := by decide

theorem ne_empty_of_mem_tokens (h : symbol ∈ Operator.tokens) : symbol ≠ "" := by
  rintro rfl
  exact absurd h (by decide)

theorem follows_of_mem_tokens (h : symbol ∈ Operator.tokens) (hcomma : symbol ≠ ",") :
    Operator.Follows symbol := by
  have all : ∀ symbol ∈ Operator.tokens, symbol ≠ "," → Operator.Follows symbol := by decide
  exact all symbol h hcomma

theorem begins_of_mem_symbols (h : symbol ∈ OperandClass.symbols) : Operator.Begins symbol := by
  have all : ∀ symbol ∈ OperandClass.symbols, Operator.Begins symbol := by decide
  exact all symbol h

/-! ## What is read -/

/-- What a symbol is read as where an operator is expected. -/
def symbolKind (symbol : String) : TokenKind := if symbol = "," then .comma else .operator symbol

/-- The longest token of the table is read. -/
theorem read_munches (h : Munches Operator.tokens at_.rest symbol) :
    read .operator at_ = .ok (⟨symbolKind symbol,
      Span.ofRange at_.offset (at_.offset + byteLength symbol.toList)⟩,
      at_.advance symbol.length) := by
  have hlength := h.length
  rw [← operatorSymbols_eq] at hlength
  have hpos : symbol.length ≠ 0 := fun hzero =>
    ne_empty_of_mem_tokens h.mem (String.length_eq_zero_iff.mp hzero)
  unfold read
  split
  case h_1 hnil =>
    have := h.head.length_le
    rw [hnil, String.length_toList, List.length_nil] at this
    omega
  case h_2 =>
    simp only
    split
    case h_1 hzero => exact absurd (hlength.symm.trans hzero) hpos
    case h_2 =>
      simp only [hlength, h.take, String.ofList_toList, Token.take, spanOf, Cursor.advance,
        symbolKind]

/-- Where no token of the table stands, the text is at its end or at fault. -/
theorem read_of_no_symbol (h : ∀ symbol ∈ Operator.tokens, ¬ symbol.toList <+: at_.rest)
    (hne : at_.rest ≠ []) : ∃ e, read .operator at_ = .error e := by
  have hzero : symbolLength operatorSymbols at_.rest = 0 := by
    rw [operatorSymbols_eq]
    refine symbolLength_of_not_prefix fun symbol hmem => ?_
    exact Bool.eq_false_iff.mpr fun hhead => h symbol hmem (List.isPrefixOf_iff_prefix.mp hhead)
  unfold read
  split
  case h_1 hnil => exact absurd hnil hne
  case h_2 =>
    simp only [hzero]
    exact ⟨_, rfl⟩

theorem follows_of_read {after : Cursor} {span : Span}
    (h : read .operator at_ = .ok (⟨.operator symbol, span⟩, after)) : Operator.Follows symbol := by
  obtain ⟨found, hpos, hfound, hkind, -⟩ := read_operator_cases h (by simp)
  have hmem := mem_of_symbolLength hpos
  rw [← hfound, String.ofList_toList, operatorSymbols_eq] at hmem
  split at hkind
  case isTrue => cases hkind
  case isFalse hcomma =>
    cases hkind
    exact follows_of_mem_tokens hmem hcomma

theorem begins_of_read {after : Cursor} {span : Span}
    (h : read .operand at_ = .ok (⟨.operator symbol, span⟩, after)) : Operator.Begins symbol := by
  obtain ⟨cls, hclass, htoken, -⟩ := read_operand_cases h (by simp)
  have hpos := longestClass?_pos hclass
  cases cls with
  | symbol =>
    obtain rfl := TokenKind.operator.inj (Except.ok.inj htoken)
    simp only [OperandClass.length] at hpos ⊢
    split at hpos
    case isTrue => omega
    case isFalse hregex =>
      rw [if_neg hregex]
      exact begins_of_mem_symbols (mem_of_symbolLength hpos)
  | int | hexInt =>
    simp only [OperandClass.token, intToken] at htoken
    split at htoken <;> cases htoken
  | _ => cases htoken

end Token

end TagExpr

namespace TagExpr

namespace Parse

variable {ε : Type}

section

-- What is done instead of refusing a symbol that has no entry.
variable (other : {α : Type} → String → Expectation → Span → Parse ε α)

/-- `operator`, with symbols that have no entry left to `other`. -/
def operatorOr (symbol : String) (span : Span) (base : Nat) (at_ : Cursor) :
    Parse ε (LexMode × Cursor) :=
  if Operator.Follows symbol then operator symbol span base at_ else other symbol .operator span

/-- `operand`, with symbols that have no entry left to `other`. -/
def operandOr (nested : List Char → Nat → Parse ε Operand) (kind : TokenKind) (span : Span) :
    Parse ε LexMode :=
  match kind with
  | .operator symbol =>
    if Operator.Begins symbol then operand nested kind span else other symbol .operand span
  | _ => operand nested kind span

/-- `rounds`, with symbols that have no entry left to `other`. -/
def roundsOr (fuel : Nat) (mode : LexMode) (base : Nat) (at_ : Cursor) : Parse ε Operand :=
  match fuel with
  | 0 => fail .unexpectedEnd (Span.point (base + at_.offset))
  | fuel + 1 => do
    let (kind, span, after) ← readToken mode base at_
    match mode with
    | .operand =>
      let nested (source : List Char) (start : Nat) : Parse ε Operand :=
        roundsOr fuel .operand start (Cursor.start source)
      let mode ← operandOr other nested kind span
      roundsOr fuel mode base after
    | _ =>
      match kind with
      | .finish => finish span
      | .comma =>
        comma span
        roundsOr fuel .operand base after
      | .operator symbol =>
        let (mode, after) ← operatorOr other symbol span base after
        roundsOr fuel mode base after
      | _ => unexpected "" .operator span

/-- `whole`, with symbols that have no entry left to `other`. -/
def wholeOr (base : Nat) (at_ : Cursor) : Parse ε Operand :=
  roundsOr other (at_.rest.length + 1) .operand base at_

variable {other} in
theorem operandOr_eq {nested : List Char → Nat → Parse ε Operand} {kind : TokenKind} {span : Span}
    (h : ∀ symbol, kind = .operator symbol → Operator.Begins symbol) :
    operandOr other nested kind span = operand nested kind span := by
  cases kind with
  | operator symbol => exact if_pos (h symbol rfl)
  | _ => rfl

theorem roundsOr_eq (fuel : Nat) (mode : LexMode) (base : Nat) (at_ : Cursor) :
    roundsOr other fuel mode base at_ = rounds fuel mode base at_ := by
  induction fuel generalizing mode base at_ with
  | zero => rfl
  | succ fuel ih =>
    cases hnext : Token.next mode at_ with
    | error e => simp only [roundsOr, rounds, readToken, hnext]; rfl
    | ok r =>
      obtain ⟨⟨kind, span⟩, after⟩ := r
      obtain ⟨found, -, hread⟩ := Token.next_eq hnext
      simp only [roundsOr, rounds, readToken, hnext, pure_bind, ih]
      cases mode with
      | operand =>
        simp only
        rw [operandOr_eq]
        rintro symbol rfl
        exact Token.begins_of_read hread
      | operator =>
        cases kind with
        | operator symbol => simp only [operatorOr, if_pos (Token.follows_of_read hread)]
        | _ => rfl
      | member =>
        cases kind with
        | operator symbol =>
          obtain ⟨-, -, hkind⟩ := Token.read_member_cases hread (by simp)
          cases hkind
        | _ => rfl

/-- The parser does the same whatever it does with symbols that have no entry. -/
theorem wholeOr_eq (base : Nat) (at_ : Cursor) : wholeOr other base at_ = whole base at_ :=
  roundsOr_eq other _ _ _ _

end

end Parse

namespace Token

variable {symbol : String} {span : Span} {text : List Char} {offset : Nat}

theorem exists_read_of_at? {mode : LexMode} {kind : TokenKind} (hk : kind ≠ .finish)
    (h : at? mode text offset = .ok ⟨kind, span⟩) :
    ∃ found after, read mode found = .ok (⟨kind, span⟩, after) := by
  unfold at? at h
  split at h
  case h_1 place _ =>
    cases hnext : next mode place with
    | error e =>
      rw [hnext] at h
      cases h
    | ok r =>
      obtain ⟨token, after⟩ := r
      rw [hnext] at h
      cases h
      obtain ⟨found, -, hread⟩ := next_eq hnext
      exact ⟨found, after, hread⟩
  case h_2 =>
    cases h
    exact absurd rfl hk

/-- **In operator position the longest token of the operator table is read.** From any place on a
text is a gap and what follows it. If a token of the table, a closer or a comma stands there, the
longest of them is read, and otherwise it is the end of the text or an error; a comment that is
never closed is an error. So every symbol that is read after an operand is a closer or has a row in
the table, as has every symbol that is read where an operand is expected, and the parser never gets
to refuse a symbol because it has none. -/
theorem longest_operator_is_read :
    (∀ rest : List Char, ∃ gap tail, rest = gap ++ tail ∧
      (Gap .operator tail.isEmpty gap ∧ Clear tail ∨ Gap .operator false gap ∧ Unclosed tail)) ∧
    (∀ before gap tail : List Char,
      let found := at? .operator (before ++ (gap ++ tail)) (byteLength before)
      let start := byteLength before + byteLength gap
      (Gap .operator tail.isEmpty gap → Clear tail →
        ((∃ symbol ∈ Operator.tokens, symbol.toList <+: tail) →
          ∃ symbol, Munches Operator.tokens tail symbol ∧ found =
            .ok ⟨symbolKind symbol, Span.ofRange start (start + byteLength symbol.toList)⟩) ∧
        ((∀ symbol ∈ Operator.tokens, ¬ symbol.toList <+: tail) →
          tail = [] ∧ found = .ok ⟨.finish, Span.point start⟩ ∨
          tail ≠ [] ∧ ∃ e, found = .error e)) ∧
      (Gap .operator false gap → Unclosed tail →
        found = .error ⟨.unterminatedComment, Span.ofRange start (start + 2)⟩)) ∧
    (∀ (text : List Char) (offset : Nat),
      (∀ before rest, text = before ++ rest → byteLength before ≠ offset) →
        at? .operator text offset = .ok ⟨.finish, Span.point (byteLength text)⟩) ∧
    (∀ (text : List Char) (offset : Nat) (symbol : String) (span : Span),
      (at? .operator text offset = .ok ⟨.operator symbol, span⟩ →
        symbol ∈ Operator.closers ∨ (Operator.findInfix? symbol).isSome) ∧
      (at? .operand text offset = .ok ⟨.operator symbol, span⟩ →
        symbol ∈ Operator.closers ∨ (Operator.findPrefix? symbol).isSome)) ∧
    ∀ (ε : Type) (other : {α : Type} → String → Expectation → Span → Parse ε α) (base : Nat)
      (at_ : Cursor), Parse.wholeOr other base at_ = Parse.whole base at_ := by
  have hm : LexMode.operator ≠ .member := by simp
  refine ⟨exists_place hm, fun before gap tail => ⟨fun hgap htail => ?_, fun hgap htail => ?_⟩,
    fun text offset h => at?_of_no_place _ h,
    fun text offset symbol span => ⟨fun h => ?_, fun h => ?_⟩,
    fun ε other base at_ => Parse.wholeOr_eq other base at_⟩
  · have hat : at? .operator (before ++ (gap ++ tail)) (byteLength before) =
        (read .operator ⟨byteLength before + byteLength gap, tail⟩).map (·.1) := by
      rw [at?_eq, next_of_clear hm hgap htail]
    refine ⟨fun ⟨_, hmem, hhead⟩ => ?_, fun hnone => ?_⟩
    · obtain ⟨symbol, hmunches⟩ := exists_munches hmem hhead
      refine ⟨symbol, hmunches, hat.trans ?_⟩
      rw [read_munches hmunches]
      rfl
    · by_cases hne : tail = []
      · subst hne
        exact .inl ⟨rfl, hat⟩
      · obtain ⟨e, hread⟩ : ∃ e, read .operator ⟨byteLength before + byteLength gap, tail⟩ =
            .error e := read_of_no_symbol hnone hne
        exact .inr ⟨hne, e, hat.trans (by rw [hread]; rfl)⟩
  · show at? .operator (before ++ (gap ++ tail)) (byteLength before) = _
    rw [at?_eq, next_of_unclosed hm hgap htail]
    rfl
  · obtain ⟨_, _, hread⟩ := exists_read_of_at? (by simp) h
    exact follows_of_read hread
  · obtain ⟨_, _, hread⟩ := exists_read_of_at? (by simp) h
    exact begins_of_read hread

example : (next .operator ⟨1, "..<n".toList⟩).map (·.1) = .ok ⟨.operator "..<", ⟨1, 4⟩⟩ := by decide

end Token

end TagExpr
