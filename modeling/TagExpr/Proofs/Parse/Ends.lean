import TagExpr.Parse.Parser
import TagExpr.Proofs.Ends

/-!
# How a step of the parser ends

The steps that the parser is made of, by what holds after them.
-/

namespace TagExpr.Parse

variable {ε α : Type} {b : Bench ε} {Q : α → Bench ε → Prop} {E : ParseError → Bench ε → Prop}

@[simp] theorem ends_fail (fault : ParseFault) (span : Span) :
    Ends (fail fault span : Parse ε α) b Q E ↔ E ⟨fault, span⟩ b := Iff.rfl

@[simp] theorem ends_unexpected (found : String) (expected : Expectation) (span : Span) :
    Ends (unexpected found expected span : Parse ε α) b Q E ↔
      E ⟨.unexpectedToken found expected, span⟩ b := Iff.rfl

@[simp] theorem ends_withTables (f : Tables ε → α × Tables ε) :
    Ends (withTables f) b Q E ↔ Q (f b.tables).1 { b with tables := (f b.tables).2 } := Iff.rfl

@[simp] theorem ends_pushOperand (o : Operand) {Q : Unit → Bench ε → Prop} :
    Ends (pushOperand o) b Q E ↔ Q () { b with operands := b.operands.push o } := Iff.rfl

@[simp] theorem ends_pushOperator (op : Operator) (span : Span) (extra : Extra)
    {Q : Unit → Bench ε → Prop} :
    Ends (pushOperator op span extra) b Q E ↔
      Q () { b with
        operators := b.operators.push { op, span, base := b.operands.size, extra } } := Iff.rfl

theorem ends_readToken {mode : LexMode} {base : Nat} {at_ : Cursor}
    {Q : TokenKind × Span × Cursor → Bench ε → Prop} :
    Ends (readToken mode base at_) b Q E ↔
      match Token.next mode at_ with
      | .ok (token, after) => Q (token.kind, token.span.shift base, after) b
      | .error e => E (.ofLex e base) b := by
  unfold readToken
  cases h : Token.next mode at_ with
  | ok r => rfl
  | error e => rfl

end TagExpr.Parse
