import TagExpr.Double.Text
import TagExpr.Token.Filler

/-!
# The lexer

A token is the longest lexeme that one of the classes of its mode admits; of two classes with
equally long lexemes the one listed first wins. A class is given by the length of its longest lexeme
at the head of a text, counted in characters. Positions are those of the text, so the same
characters can mean different things in different modes.
-/

namespace TagExpr.Token

/-! ## Lengths of lexemes -/

/-- A letter or underscore, with which names begin. Names are made of ASCII characters. -/
def isNameStart (c : Char) : Bool := c.isAlpha || c == '_'

def isNamePart (c : Char) : Bool := c.isAlphanum || c == '_'

/-- The length of the name at the head of a text; zero if there is none. -/
def nameLength : List Char → Nat
  | [] => 0
  | c :: rest => if isNameStart c then 1 + (rest.takeWhile isNamePart).length else 0

/-- The length of a name together with a parenthesis right after it. -/
def callableLength (text : List Char) : Nat :=
  let name := nameLength text
  if name = 0 then 0 else
    match text.drop name with
    | '(' :: _ => name + 1
    | _ => name

def digitsLength (text : List Char) : Nat := (text.takeWhile Char.isDigit).length

def isHexDigit (c : Char) : Bool :=
  c.isDigit || ('a' ≤ c && c ≤ 'f') || ('A' ≤ c && c ≤ 'F')

/-- One if the text begins with one of the letters, else zero. -/
def suffixLength (letters : List Char) : List Char → Nat
  | [] => 0
  | c :: _ => if letters.contains c then 1 else 0

/-- The length of an exponent; zero if its digits are missing. -/
def exponentLength : List Char → Nat
  | [] => 0
  | c :: rest =>
    if c = 'e' ∨ c = 'E' then
      let sign := suffixLength ['+', '-'] rest
      let digits := digitsLength (rest.drop sign)
      if digits = 0 then 0 else 1 + sign + digits
    else 0

/-- The exponent and the suffix that may follow the digits of a double. -/
def doubleTailLength (text : List Char) : Nat :=
  let exponent := exponentLength text
  exponent + suffixLength ['d', 'D', 'f', 'F'] (text.drop exponent)

def intLength (text : List Char) : Nat :=
  let digits := digitsLength text
  if digits = 0 then 0 else digits + suffixLength ['l', 'L'] (text.drop digits)

def hexLength : List Char → Nat
  | '0' :: x :: rest =>
    if x = 'x' ∨ x = 'X' then
      let digits := (rest.takeWhile isHexDigit).length
      if digits = 0 then 0 else 2 + digits + suffixLength ['l', 'L'] (rest.drop digits)
    else 0
  | _ => 0

/-- A double has a point with digits after it, an exponent or a suffix. -/
def doubleLength (text : List Char) : Nat :=
  let whole := digitsLength text
  match text.drop whole with
  | '.' :: rest =>
    let fraction := digitsLength rest
    if fraction = 0 then 0
    else whole + 1 + fraction + doubleTailLength (rest.drop fraction)
  | rest =>
    if whole = 0 then 0 else
      let tail := doubleTailLength rest
      if tail = 0 then 0 else whole + tail

/-- How far a quoted literal reaches: the number of characters after its opener up to and including
its closer, or, if it is not closed, up to the first character that cannot belong to it. -/
structure Extent where
  length : Nat
  closed : Bool
  deriving Repr, DecidableEq

/-- The same extent with `count` more characters before it. -/
def Extent.after (count : Nat) (e : Extent) : Extent := { e with length := count + e.length }

/-- The extent of a literal after its opener. A backslash takes the next character with it unless
that is a line feed; a bare line feed is allowed if `multiline`. -/
def quotedExtent (closer : Char) (multiline : Bool) : List Char → Extent
  | [] => ⟨0, false⟩
  | '\\' :: rest =>
    match rest with
    | [] => ⟨0, false⟩
    | c :: rest => if c = '\n' then ⟨0, false⟩ else (quotedExtent closer multiline rest).after 2
  | c :: rest =>
    if c = closer then ⟨1, true⟩
    else if c = '\n' && !multiline then ⟨0, false⟩
    else (quotedExtent closer multiline rest).after 1

/-- The extent of a string literal in the given quotes, which may span lines. -/
def stringExtent? (quote : Char) : List Char → Option Extent
  | [] => none
  | c :: rest => if c = quote then some ((quotedExtent quote true rest).after 1) else none

/-- The extent of a pattern literal `~/…/`, which ends on its line. -/
def regexExtent? : List Char → Option Extent
  | '~' :: '/' :: rest => some ((quotedExtent '/' false rest).after 2)
  | _ => none

/-- The length of a literal, zero if it is not closed. -/
def closedLength : Option Extent → Nat
  | some ⟨length, true⟩ => length
  | _ => 0

/-- The number of times that `../` stands at the head of a text. -/
def ascents : List Char → Nat
  | '.' :: '.' :: '/' :: rest => 1 + ascents rest
  | _ => 0

/-- The marks before a name that select a section frame, and their number of characters. -/
def lookupMarks : List Char → Lookup × Nat
  | '.' :: '/' :: _ => (.backreach 0, 2)
  | '/' :: _ => (.root, 1)
  | '\\' :: _ => (.root, 1)
  | text =>
    match ascents text with
    | 0 => (.unstated, 0)
    | levels => (.backreach levels, 3 * levels)

/-- A name with the marks before it, a dot if it is an internal name, and a parenthesis. -/
def identLength (text : List Char) : Nat :=
  let marks := (lookupMarks text).2
  match text.drop marks with
  | '.' :: rest =>
    let name := callableLength rest
    if name = 0 then 0 else marks + 1 + name
  | rest =>
    let name := callableLength rest
    if name = 0 then 0 else marks + name

/-- The number of times that `/..` stands at the head of a text. -/
def furtherParents : List Char → Nat
  | '/' :: '.' :: '.' :: rest => 1 + furtherParents rest
  | _ => 0

/-- The length of a path to a section value: a dot, or pairs of dots with slashes between them. A
slash after the last pair is taken with it, also when no name follows. -/
def pathLength : List Char → Nat
  | '.' :: '.' :: rest =>
    let further := 3 * furtherParents rest
    2 + further + suffixLength ['/'] (rest.drop further)
  | '.' :: _ => 1
  | _ => 0

/-- The number of levels that a path goes up. -/
def pathLevels : List Char → Nat
  | '.' :: '.' :: rest => 1 + furtherParents rest
  | _ => 0

/-- The length of the longest of the symbols with which a text begins. -/
def symbolLength (symbols : List String) (text : List Char) : Nat :=
  symbols.foldl
    (fun best symbol => if symbol.toList.isPrefixOf text then max best symbol.length else best) 0

/-! ## Classes of tokens -/

/-- The classes of tokens that may start an operand, in order of preference. -/
inductive OperandClass where
  | null
  | bool (value : Bool)
  | int | hexInt | double
  | doubleQuoted | singleQuoted | regex
  | ident | path | annotated
  | emptyMap | symbol | comma
  deriving Repr, DecidableEq, Inhabited

namespace OperandClass

def all : List OperandClass := [null, bool true, bool false, int, hexInt, double, doubleQuoted,
  singleQuoted, regex, ident, path, annotated, emptyMap, symbol, comma]

/-- The symbols that may stand where an operand is expected. -/
def symbols : List String := ["(", "[", "\x7b", ")", "]", "\x7d", "!", "-", "+", "~", "☠"]

/-- The length of the longest lexeme of the class at the head of a text, zero if there is none. A
tilde right before a slash always begins a pattern literal, so it is no operator there. -/
def length (text : List Char) : OperandClass → Nat
  | null => symbolLength ["null"] text
  | bool true => symbolLength ["true"] text
  | bool false => symbolLength ["false"] text
  | int => intLength text
  | hexInt => hexLength text
  | double => doubleLength text
  | doubleQuoted => closedLength (stringExtent? '"' text)
  | singleQuoted => closedLength (stringExtent? '\'' text)
  | regex => closedLength (regexExtent? text)
  | ident => identLength text
  | path => pathLength text
  | annotated =>
    match text with
    | '@' :: rest => if callableLength rest = 0 then 0 else 1 + callableLength rest
    | _ => 0
  | emptyMap => symbolLength ["[:]"] text
  | symbol => if (regexExtent? text).isSome then 0 else symbolLength symbols text
  | comma => symbolLength [","] text

end OperandClass

/-- The class with the longest lexeme, the first of those if several are equally long. -/
def longestClass? (text : List Char) : Option (OperandClass × Nat) :=
  OperandClass.all.foldl
    (fun best cls =>
      let length := cls.length text
      match best with
      | some (_, longest) => if longest < length then some (cls, length) else best
      | none => if 0 < length then some (cls, length) else none)
    none

/-- The symbols that may follow an operand, the comma among them. -/
def operatorSymbols : List String := [
  ".", "?.", "[", "?[", "**", "*", "/", "%", "+", "-", "<<", ">>", ">>>", "..", "..<", "<=>",
  "<", "<=", ">", ">=", "==", "!=", "=~", "==~", "&", "^", "|", "&&", "||", "??", "?:", "!?", "!:",
  "?", ":", "=", ":=", "#>", "#.", "#|", "#?", "#<", "#^", ";", ")", "]", "\x7d", ","]

/-! ## From lexemes to tokens -/

/-- The value of digits of the given base. -/
def digitsValue (base : Nat) (digits : List Char) : Nat :=
  digits.foldl (fun value c => base * value + hexValue c) 0
where
  /-- The value of one hexadecimal digit. -/
  hexValue (c : Char) : Nat :=
    if c.isDigit then c.toNat - '0'.toNat
    else if 'a' ≤ c then c.toNat - 'a'.toNat + 10
    else c.toNat - 'A'.toNat + 10

/-- The largest integer that a literal can hold. -/
def maxInt : Nat := Nat.pow 2 63 - 1

/-- An integer literal without its suffix. -/
def intToken (base : Nat) (digits : List Char) : Except LexFault TokenKind :=
  let value := digitsValue base (digits.filter fun c => c != 'l' && c != 'L')
  if value ≤ maxInt then .ok (.int (Int64.ofNat value)) else .error .intOutOfRange

/-- A double literal, its suffix included. -/
def doubleToken (lexeme : List Char) : TokenKind :=
  let digits := lexeme.takeWhile fun c => !(['d', 'D', 'f', 'F'].contains c)
  .double ((Double.readUnsigned? false digits).getD Double.zero)

/-- Splits a name from the parenthesis after it. -/
def splitCall (lexeme : List Char) : String × Bool :=
  if lexeme.getLast? = some '(' then (String.ofList lexeme.dropLast, true)
  else (String.ofList lexeme, false)

/-- A name token, from its lexeme. -/
def identOf (lexeme : List Char) : Ident :=
  let (lookup, marks) := lookupMarks lexeme
  match lexeme.drop marks with
  | '.' :: rest =>
    let (name, call) := splitCall rest
    ⟨.internal name, lookup, call⟩
  | rest =>
    let (name, call) := splitCall rest
    ⟨.name name, lookup, call⟩

/-- The contents of a literal whose opener has `opener` characters and whose closer has one. -/
def contents (opener : Nat) (lexeme : List Char) : List Char := (lexeme.drop opener).dropLast

/-- The token that a lexeme of a class stands for. -/
def OperandClass.token (lexeme : List Char) : OperandClass → Except LexFault TokenKind
  | .null => .ok .null
  | .bool value => .ok (.bool value)
  | .int => intToken 10 lexeme
  | .hexInt => intToken 16 (lexeme.drop 2)
  | .double => .ok (doubleToken lexeme)
  | .doubleQuoted => .ok (.str (contents 1 lexeme) true)
  | .singleQuoted => .ok (.str (contents 1 lexeme) false)
  | .regex => .ok (.regex (contents 2 lexeme))
  | .ident => .ok (.ident (identOf lexeme))
  | .path => .ok (.ident { kind := .current (pathLevels lexeme) })
  | .annotated =>
    let (name, call) := splitCall (lexeme.drop 1)
    .ok (.ident { kind := .annotated name, call })
  | .emptyMap => .ok .emptyMap
  | .symbol => .ok (.operator (String.ofList lexeme))
  | .comma => .ok .comma

/-! ## Where no class applies -/

/-- The number of characters at fault where no token begins. A literal that is not closed is at
fault as far as it reaches, anything else with its first character. -/
def faultLength (mode : LexMode) (text : List Char) : Nat :=
  match mode with
  | .operand =>
    let extent := (stringExtent? '"' text).or ((stringExtent? '\'' text).or (regexExtent? text))
    (extent.map (·.length)).getD 1
  | _ => 1

/-- The fault where no token begins. -/
def faultAt (mode : LexMode) (first : Char) : LexFault :=
  if mode ≠ .member ∧ (first = '"' ∨ first = '\'') then .unterminatedString
  else .unexpectedChar first mode

/-! ## One token -/

/-- The span of the next `count` characters. -/
def spanOf (at_ : Cursor) (count : Nat) : Span := Span.ofRange at_.offset (at_.advance count).offset

/-- Makes a token of the next `count` characters. -/
def take (at_ : Cursor) (count : Nat) (kind : Except LexFault TokenKind) :
    Except LexError (Token × Cursor) :=
  match kind with
  | .ok kind => .ok (⟨kind, spanOf at_ count⟩, at_.advance count)
  | .error fault => .error ⟨fault, spanOf at_ count⟩

/-- The token that begins at a place where no filler stands. -/
def read (mode : LexMode) (at_ : Cursor) : Except LexError (Token × Cursor) :=
  match at_.rest with
  | [] => .ok (⟨.finish, Span.point at_.offset⟩, at_)
  | first :: _ =>
    let unknown : Except LexError (Token × Cursor) :=
      .error ⟨faultAt mode first, spanOf at_ (faultLength mode at_.rest)⟩
    match mode with
    | .operand =>
      match longestClass? at_.rest with
      | some (cls, count) => take at_ count (cls.token (at_.rest.take count))
      | none => unknown
    | .operator =>
      match symbolLength operatorSymbols at_.rest with
      | 0 => unknown
      | count =>
        let symbol := String.ofList (at_.rest.take count)
        take at_ count (.ok (if symbol = "," then .comma else .operator symbol))
    | .member =>
      match callableLength at_.rest with
      | 0 => unknown
      | count =>
        let (name, call) := splitCall (at_.rest.take count)
        take at_ count (.ok (.ident { kind := .name name, call }))

/-- The next token, after any filler, and the place after it. -/
def next (mode : LexMode) (at_ : Cursor) : Except LexError (Token × Cursor) := do
  read mode (← skip mode at_)

/-- The token after the given byte offset. An offset past the end of the text or inside a character
gives the end of the text. -/
def at? (mode : LexMode) (text : List Char) (offset : Nat) : Except LexError Token :=
  match Cursor.seek? offset (Cursor.start text) with
  | some at_ => (next mode at_).map (·.1)
  | none => .ok ⟨.finish, Span.point (byteLength text)⟩

end TagExpr.Token
