import TagExpr.Operator
import TagExpr.Signature

/-!
# Chains of operands

A chain is what the operator table speaks of: operands with prefix operators in front of them and
binary operators between them. Its text is its lexemes with a space between two of them. Only names
that no keyword takes and integers that fit 64 bits are operands here, so every chain is a text that
the lexer can read.
-/

namespace TagExpr

/-! ## Rows of the tables -/

/-- The row of the operator among those that follow an operand. -/
def BinaryOp.entry (op : BinaryOp) : Operator :=
  (Operator.infixTable.find? (·.kind = .binary op)).getD default

/-- The row of the operator among those that start an operand. -/
def UnaryOp.entry (op : UnaryOp) : Operator :=
  (Operator.prefixTable.find? (·.kind = .unary op)).getD default

/-- The row of the question mark of a ternary. -/
def Operator.question : Operator := ⟨"?", 16, .right, .ternary⟩

theorem BinaryOp.findInfix?_entry (op : BinaryOp) :
    Operator.findInfix? op.symbol = some op.entry := by
  cases op <;> rfl

theorem UnaryOp.findPrefix?_entry (op : UnaryOp) :
    Operator.findPrefix? op.symbol = some op.entry := by
  cases op <;> rfl

theorem BinaryOp.kind_entry (op : BinaryOp) : op.entry.kind = .binary op := by
  cases op <;> rfl

theorem UnaryOp.kind_entry (op : UnaryOp) : op.entry.kind = .unary op := by
  cases op <;> rfl

theorem BinaryOp.entry_mem (op : BinaryOp) : op.entry ∈ Operator.infixTable :=
  List.mem_of_find?_eq_some op.findInfix?_entry

namespace Climbing

/-! ## Operands -/

/-- A name that is no keyword. -/
structure Name where
  first : Char
  rest : List Char
  starts : Token.isNameStart first
  parts : ∀ c ∈ rest, Token.isNamePart c
  plain : String.ofList (first :: rest) ∉ Signature.keywords

/-- How the digits of an integer are written. -/
inductive Radix where
  | decimal
  /-- After `0x`, or after `0X` if `upper`. -/
  | hexadecimal (upper : Bool)

namespace Radix

def base : Radix → Nat
  | decimal => 10
  | hexadecimal _ => 16

def lead : Radix → List Char
  | decimal => []
  | hexadecimal upper => ['0', if upper then 'X' else 'x']

def isDigit : Radix → Char → Bool
  | decimal => Char.isDigit
  | hexadecimal _ => Token.isHexDigit

end Radix

/-- An integer that fits 64 bits, with or without a suffix. -/
structure Numeral where
  radix : Radix
  digits : List Char
  suffix : Option Char
  nonempty : digits ≠ []
  digital : ∀ c ∈ digits, radix.isDigit c
  suffixed : ∀ c ∈ suffix, c = 'l' ∨ c = 'L'
  fits : Token.digitsValue radix.base digits ≤ Token.maxInt

/-- An operand without operators. -/
inductive Atom where
  | name (name : Name)
  | numeral (numeral : Numeral)

namespace Name

def lexeme (n : Name) : List Char := n.first :: n.rest

/-- The name as a member. -/
def key (n : Name) : IdentKey := .property (String.ofList n.lexeme)

end Name

namespace Numeral

def lexeme (n : Numeral) : List Char := n.radix.lead ++ n.digits ++ n.suffix.toList

def value (n : Numeral) : Int64 := Int64.ofNat (Token.digitsValue n.radix.base n.digits)

end Numeral

def Atom.lexeme : Atom → List Char
  | name n => n.lexeme
  | numeral n => n.lexeme

/-! ## Chains -/

/-- An operand with the operators in front of it. -/
structure Term where
  prefixes : List UnaryOp
  atom : Atom

/-- What may follow an operand: operators, each with its right operand. -/
abbrev Tail := List (BinaryOp × Term)

/-- Operands with a binary operator between two of them. -/
structure Chain where
  head : Term
  tail : Tail

def Term.lexemes (t : Term) : List String :=
  t.prefixes.map (·.symbol) ++ [String.ofList t.atom.lexeme]

def Chain.lexemes (c : Chain) : List String :=
  c.head.lexemes ++ c.tail.flatMap fun (op, term) => op.symbol :: term.lexemes

/-- The lexemes with a space between two of them. -/
def Chain.text (c : Chain) : String := " ".intercalate c.lexemes

end Climbing

end TagExpr
