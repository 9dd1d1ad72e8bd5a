import TagExpr.Cursor
import TagExpr.Token

/-!
# Escapes in string literals

A backslash and what follows it stand for one character. Offsets are those of the text between the
quotes.
-/

namespace TagExpr.Literal

/-- The character for which a single character after a backslash stands. -/
def simpleEscape? : Char → Option Char
  | 'n' => some '\n'
  | 't' => some '\t'
  | 'r' => some '\r'
  | 'b' => some '\x08'
  | 'f' => some '\x0c'
  | '0' => some '\x00'
  | '\\' => some '\\'
  | '\'' => some '\''
  | '"' => some '"'
  | '$' => some '$'
  | '/' => some '/'
  | _ => none

/-- The value of a hexadecimal digit. -/
def hexDigit? (c : Char) : Option Nat :=
  if '0' ≤ c ∧ c ≤ '9' then some (c.toNat - '0'.toNat)
  else if 'a' ≤ c ∧ c ≤ 'f' then some (c.toNat - 'a'.toNat + 10)
  else if 'A' ≤ c ∧ c ≤ 'F' then some (c.toNat - 'A'.toNat + 10)
  else none

/-- The value of four hexadecimal digits. -/
def hexCode? (a b c d : Char) : Option Nat := do
  return (((← hexDigit? a) * 16 + (← hexDigit? b)) * 16 + (← hexDigit? c)) * 16 + (← hexDigit? d)

/-- The character with this code, if there is one: surrogates are no characters. -/
def scalar? (code : Nat) : Option Char :=
  if code.isValidChar then some (Char.ofNat code) else none

/-- One escape: the character it stands for and the number of characters it takes, the backslash
included. `offset` is the place of the backslash. -/
def escape (offset : Nat) : List Char → Except LexError (Char × Nat)
  | [] => .error ⟨.danglingEscape, Span.ofRange offset (offset + 1)⟩
  | 'u' :: digits =>
    match digits with
    | a :: b :: c :: d :: _ =>
      match hexCode? a b c d with
      | some code =>
        match scalar? code with
        | some char => .ok (char, 6)
        | none => .error ⟨.invalidUnicodeScalar, Span.ofRange offset (offset + 6)⟩
      | none => .error ⟨.malformedUnicodeEscape, Span.ofRange offset (offset + 2)⟩
    | _ => .error ⟨.malformedUnicodeEscape, Span.ofRange offset (offset + 2)⟩
  | c :: _ =>
    match simpleEscape? c with
    | some char => .ok (char, 2)
    | none => .error ⟨.unknownEscape c, Span.ofRange offset (offset + 1 + c.utf8Size)⟩

/-- Replaces the escapes of a text, of which the first `skip` characters belong to an escape that
has been replaced already. -/
def unescapeFrom (skip offset : Nat) : List Char → Except LexError (List Char)
  | [] => .ok []
  | c :: rest =>
    match skip with
    | skip + 1 => unescapeFrom skip (offset + c.utf8Size) rest
    | 0 =>
      if c = '\\' then do
        let (char, count) ← escape offset rest
        return char :: (← unescapeFrom (count - 1) (offset + 1) rest)
      else do
        return c :: (← unescapeFrom 0 (offset + c.utf8Size) rest)

/-- Replaces the escapes of a literal. -/
def unescape (raw : List Char) : Except LexError (List Char) := unescapeFrom 0 0 raw

/-- The source of a pattern literal: a slash written with a backslash is a slash. -/
def regexSource : List Char → List Char
  | [] => []
  | '\\' :: '/' :: rest => '/' :: regexSource rest
  | c :: rest => c :: regexSource rest

theorem unescapeFrom_eq_self {text : List Char} (h : '\\' ∉ text) (offset : Nat) :
    unescapeFrom 0 offset text = .ok text := by
  induction text generalizing offset with
  | nil => rfl
  | cons c rest ih =>
    have hc : c ≠ '\\' := fun e => h (by simp [e])
    have hrest : '\\' ∉ rest := fun m => h (by simp [m])
    simp [unescapeFrom, hc, ih hrest, bind, Except.bind, pure, Except.pure]

end TagExpr.Literal
