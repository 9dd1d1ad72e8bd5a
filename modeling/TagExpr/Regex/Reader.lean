import TagExpr.Literal.Escape
import TagExpr.Regex.Pattern
import TagExpr.Regex.Property

/-!
# Reading patterns

The notation of patterns. Reading keeps the flags that are set at the place it has come to, and
gives the tree for these flags at once. It answers nothing where the text is no pattern: there is no
looking around and no reference back to a group, and braces always count repetitions.
-/

namespace TagExpr.Regex

/-- The flags that change what the notation means. -/
structure Flags where
  /-- Letters match in either case. -/
  ignoreCase : Bool := false
  /-- `^` and `$` match at the ends of lines. -/
  multiLine : Bool := false
  /-- The dot matches a line feed. -/
  dotAll : Bool := false
  /-- Classes hold characters beyond ASCII. -/
  unicode : Bool := true
  /-- Blanks and comments do not count. -/
  verbose : Bool := false
  /-- A carriage return ends lines too. -/
  crlf : Bool := false
  deriving Repr, DecidableEq, Inhabited

namespace Flags

/-- Sets the flag with this letter; `U`, which asks for the shortest repetition first, changes
nothing about whether a pattern occurs. -/
def set? (f : Flags) (letter : Char) (on : Bool) : Option Flags :=
  match letter with
  | 'i' => some { f with ignoreCase := on }
  | 'm' => some { f with multiLine := on }
  | 's' => some { f with dotAll := on }
  | 'u' => some { f with unicode := on }
  | 'x' => some { f with verbose := on }
  | 'R' => some { f with crlf := on }
  | 'U' => some f
  | _ => none

/-- A set closed under case if case does not count. -/
def fold (f : Flags) (set : CharSet) : CharSet :=
  if !f.ignoreCase then set else if f.unicode then .folded set else .foldedAscii set

/-- The set as it stands in a pattern: closed under case, then negated. -/
def finish (f : Flags) (negated : Bool) (set : CharSet) : CharSet :=
  CharSet.negatedIf negated (f.fold set)

/-- A named property; without Unicode only its ASCII characters. -/
def property (f : Flags) (p : CharProperty) : CharSet :=
  if f.unicode then .property p else (CharSet.property p).ascii

/-- The class of the characters of words. -/
def word (f : Flags) : CharSet := f.property .word

/-- Without Unicode a pattern must not match a part of a character. -/
def admits (f : Flags) (set : CharSet) : Bool := f.unicode || set.isAsciiOnly

end Flags

/-- Where reading has come to. -/
structure ReadState where
  rest : List Char
  flags : Flags := {}
  /-- The names of groups so far. -/
  names : List (List Char) := []

/-- A step of reading, which may find that the text is no pattern. -/
abbrev Reader := StateT ReadState Option

namespace Reader

def refuse {α : Type} : Reader α := fun _ => none

/-- The given step must have a result. -/
def need {α : Type} : Option α → Reader α
  | some a => pure a
  | none => refuse

def flags : Reader Flags := do return (← get).flags

def setFlags (flags : Flags) : Reader Unit := modify ({ · with flags })

def rest : Reader (List Char) := do return (← get).rest

def setRest (rest : List Char) : Reader Unit := modify ({ · with rest })

/-- The next character, which stays. -/
def peek? : Reader (Option Char) := do return (← rest).head?

/-- Drops that many characters. -/
def drop (count : Nat) : Reader Unit := do setRest ((← rest).drop count)

/-- What follows blanks and comments, of which a comment runs from `#` to the end of its line. -/
def skipBlank (inComment : Bool) : List Char → List Char
  | [] => []
  | c :: after =>
    if inComment then skipBlank (c != '\n') after
    else if Text.isBlank c then skipBlank false after
    else if c = '#' then skipBlank true after
    else c :: after

/-- Drops blanks and comments where they do not count. -/
def skip : Reader Unit := do
  if (← flags).verbose then setRest (skipBlank false (← rest))

/-- Takes the next character and drops what does not count behind it. -/
def take : Reader Char := do
  match ← rest with
  | [] => refuse
  | c :: after =>
    setRest after
    skip
    return c

/-- Drops the given text if it comes next. -/
def takeText (text : List Char) : Reader Bool := do
  if text.isPrefixOf (← rest) then
    drop text.length
    return true
  else
    return false

/-- Takes characters as long as they are in a class, with what does not count between them. -/
def takeWhile (keep : Char → Bool) : Nat → Reader (List Char)
  | 0 => return []
  | count + 1 => do
    match ← peek? with
    | none => return []
    | some c =>
      if keep c then
        let first ← take
        return first :: (← takeWhile keep count)
      else
        return []

/-- Takes characters of a class to the end of the text at most. -/
def takeAll (keep : Char → Bool) : Reader (List Char) := do takeWhile keep (← rest).length

/-! ## Escapes -/

/-- What one element of the notation stands for. -/
inductive Item where
  | char (c : Char)
  | set (s : CharSet)
  | anchor (a : Anchor) (word : CharSet)

/-- The character with the code that the hexadecimal digits write. -/
def codePoint? (digits : List Char) : Option Char := do
  let values ← digits.mapM Literal.hexDigit?
  if values.isEmpty then none else Literal.scalar? (values.foldl (fun n d => 16 * n + d) 0)

/-- The rest of `\x`, `\u` or `\U`, which take `count` digits or any number between braces. -/
def hexEscape (count : Nat) : Reader Char := do
  if (← peek?) = some '{' then
    let _ ← take
    let digits ← takeAll (· != '}')
    let _ ← take
    need (codePoint? digits)
  else
    let digits ← takeWhile (fun c => (Literal.hexDigit? c).isSome) count
    if digits.length = count then need (codePoint? digits) else refuse

/-- The first place at which a mark stands divides a text. -/
def divide? (mark text : List Char) : Option (List Char × List Char) :=
  (List.range (text.length + 1)).findSome? fun place =>
    if mark.isPrefixOf (text.drop place) then
      some (text.take place, text.drop (place + mark.length))
    else none

/-- What stands between the braces of `\p{…}`: a property and whether it is denied. -/
def propertyQuery? (text : List Char) : Option (CharProperty × Bool) :=
  match divide? ['!', '='] text with
  | some (name, value) => (CharProperty.valued? name value).map (·, true)
  | none =>
    match (divide? [':'] text) <|> (divide? ['='] text) with
    | some (name, value) => (CharProperty.valued? name value).map (·, false)
    | none => (CharProperty.named? text).map (·, false)

/-- The rest of `\p` or `\P`: one letter or a name between braces. -/
def propertyClass (negated : Bool) : Reader CharSet := do
  let f ← flags
  if !f.unicode then refuse
  let first ← take
  if first = '{' then
    let query ← takeAll (· != '}')
    let _ ← take
    let (p, denied) ← need (propertyQuery? query)
    return f.finish (negated != denied) (.property p)
  else if first = '\\' then
    refuse
  else
    let p ← need (CharProperty.named? [first])
    return f.finish negated (.property p)

/-- The rest of `\d`, `\s`, `\w` or of one of their negations. -/
def shortClass (p : CharProperty) (negated : Bool) : Reader CharSet := do
  return CharSet.negatedIf negated ((← flags).property p)

/-- The anchors that are named between braces after `\b`. -/
def namedBoundary? (name : List Char) : Option Anchor :=
  match String.ofList name with
  | "start" => some .wordStart
  | "end" => some .wordEnd
  | "start-half" => some .wordStartHalf
  | "end-half" => some .wordEndHalf
  | _ => none

/-- A character of the names of boundaries. -/
def isBoundaryName (c : Char) : Bool := c.isUpper || c.isLower || c = '-'

/-- The rest of `\b`; a brace that no name follows counts repetitions. -/
def boundary : Reader Anchor := do
  let before ← rest
  if before.head? != some '{' then
    return .wordBoundary
  let _ ← take
  match ← peek? with
  | none => refuse
  | some c =>
    if isBoundaryName c then
      let name ← takeAll isBoundaryName
      if (← peek?) != some '}' then refuse
      drop 1
      need (namedBoundary? name)
    else
      setRest before
      return .wordBoundary

/-- The characters of the notation. -/
def metaCharacters : List Char := "\\.+*?()|[]\x7b\x7d^$#&-~".toList

/-- The characters that may be escaped without need: those of ASCII except letters, digits and angle
brackets. -/
def isEscapable (c : Char) : Bool :=
  metaCharacters.contains c || (c.toNat < 128 && !c.isAlphanum && c != '<' && c != '>')

/-- What follows a backslash. -/
def escape : Reader Item := do
  let f ← flags
  match ← peek? with
  | none => refuse
  | some c =>
    match c with
    | 'x' => let _ ← take; return .char (← hexEscape 2)
    | 'u' => let _ ← take; return .char (← hexEscape 4)
    | 'U' => let _ ← take; return .char (← hexEscape 8)
    | 'p' => let _ ← take; return .set (← propertyClass false)
    | 'P' => let _ ← take; return .set (← propertyClass true)
    | _ =>
      drop 1
      match c with
      | 'd' => return .set (← shortClass .digit false)
      | 'D' => return .set (← shortClass .digit true)
      | 's' => return .set (← shortClass .blank false)
      | 'S' => return .set (← shortClass .blank true)
      | 'w' => return .set (← shortClass .word false)
      | 'W' => return .set (← shortClass .word true)
      | 'a' => return .char '\x07'
      | 'f' => return .char '\x0c'
      | 't' => return .char '\t'
      | 'n' => return .char '\n'
      | 'r' => return .char '\r'
      | 'v' => return .char '\x0b'
      | 'A' => return .anchor .textStart f.word
      | 'z' => return .anchor .textEnd f.word
      | 'b' => return .anchor (← boundary) f.word
      | 'B' => return .anchor .noWordBoundary f.word
      | '<' => return .anchor .wordStart f.word
      | '>' => return .anchor .wordEnd f.word
      | _ => if isEscapable c then return .char c else refuse

/-! ## Bracketed classes -/

/-- Operations between the parts of a class, which are applied from left to right. -/
inductive SetOp where
  | inter | diff | symmDiff

namespace SetOp

def apply : SetOp → CharSet → CharSet → CharSet
  | inter => .inter
  | diff => .diff
  | symmDiff => .symmDiff

/-- The operation that two equal characters write. -/
def ofChar? : Char → Option SetOp
  | '&' => some inter
  | '-' => some diff
  | '~' => some symmDiff
  | _ => none

end SetOp

/-- A class that is being read. -/
structure OpenClass where
  negated : Bool
  /-- What the operations before have given, with the one that waits for its right side. -/
  left : Option (SetOp × CharSet) := none
  /-- The elements since the last operation. -/
  elements : CharSet := .empty

namespace OpenClass

/-- The set that the parts give so far. -/
def value (c : OpenClass) (f : Flags) : CharSet :=
  match c.left with
  | none => c.elements
  | some (op, left) => op.apply (f.fold left) (f.fold c.elements)

def add (c : OpenClass) (set : CharSet) : OpenClass :=
  { c with elements := .union c.elements set }

/-- Lets an operation wait for its right side. -/
def operate (c : OpenClass) (f : Flags) (op : SetOp) : OpenClass :=
  { c with left := some (op, c.value f), elements := .empty }

end OpenClass

/-- Hyphens right after the opening bracket stand for themselves. -/
def leadingHyphens (c : OpenClass) : Nat → Reader OpenClass
  | 0 => return c
  | count + 1 => do
    if (← peek?) = some '-' then
      let _ ← take
      leadingHyphens (c.add (.single '-')) count
    else
      return c

/-- The beginning of a class, after its bracket: a mark of negation, hyphens and, where there are
none, a closing bracket that stands for itself. -/
def classStart : Reader OpenClass := do
  let negated := (← peek?) = some '^'
  if negated then
    let _ ← take
  let before ← rest
  let c ← leadingHyphens { negated } before.length
  if (← peek?) = some ']' && before.head? != some '-' then
    let _ ← take
    return c.add (.single ']')
  else
    return c

/-- An element of a class, before it is known whether it begins a range. -/
def classItem : Reader Item := do
  match ← rest with
  | [] => refuse
  | '\\' :: after =>
    setRest after
    escape
  | c :: after =>
    setRest after
    return .char c

/-- The set that a single element adds to a class. -/
def elementSet : Item → Reader CharSet
  | .char c => do
    if !(← flags).unicode && 127 < c.toNat then refuse
    return .single c
  | .set s => return s
  | .anchor .. => refuse

/-- An element of a class or a range of characters. -/
def classRange : Reader CharSet := do
  let first ← classItem
  skip
  match ← rest with
  | '-' :: after =>
    let behind := if (← flags).verbose then skipBlank false after else after
    if behind.isEmpty || behind.head? = some ']' || behind.head? = some '-' then
      elementSet first
    else
      let _ ← take
      match first, ← classItem with
      | .char low, .char high =>
        if high < low then refuse
        if !(← flags).unicode && 127 < high.toNat then refuse
        return .range low high
      | _, _ => refuse
  | _ => elementSet first

/-- A class such as `[:alpha:]` at the opening bracket, if there is one; nothing is read where there
is none. -/
def asciiClass? : Reader (Option CharSet) := do
  match ← rest with
  | '[' :: ':' :: after =>
    let negated := after.head? = some '^'
    let name := if negated then after.drop 1 else after
    match divide? [':', ']'] name with
    | some (name, behind) =>
      if name.contains ':' then
        return none
      match CharSet.asciiClass? name with
      | some set =>
        setRest behind
        return some ((← flags).finish negated set)
      | none => return none
    | none => return none
  | _ => return none

/-- The rest of a class, its closing bracket included. -/
def classBody : Nat → OpenClass → Reader CharSet
  | 0, _ => refuse
  | fuel + 1, c => do
    skip
    let f ← flags
    match ← rest with
    | [] => refuse
    | ']' :: after =>
      setRest after
      let set := f.finish c.negated (c.value f)
      if f.admits set then return set else refuse
    | '[' :: _ =>
      match ← asciiClass? with
      | some set => classBody fuel (c.add set)
      | none =>
        let _ ← take
        let nested ← classBody fuel (← classStart)
        classBody fuel (c.add nested)
    | first :: second :: _ =>
      match SetOp.ofChar? first with
      | some op =>
        if first = second then
          drop 2
          classBody fuel (c.operate f op)
        else
          classBody fuel (c.add (← classRange))
      | none => classBody fuel (c.add (← classRange))
    | [_] => classBody fuel (c.add (← classRange))

/-! ## Groups and repetitions -/

/-- The letters of a group of flags up to `:` or `)`, which stays. `seen` are the signs so far, of
which each may stand once. -/
def flagLetters : Nat → List Char → Flags → Reader Flags
  | 0, _, _ => refuse
  | fuel + 1, seen, f => do
    match ← rest with
    | [] => refuse
    | c :: after =>
      if c = ':' || c = ')' then
        if seen.head? = some '-' then refuse else return f
      else if seen.contains c then
        refuse
      else
        setRest after
        if c = '-' then
          flagLetters fuel (c :: seen) f
        else
          flagLetters fuel (c :: seen) (← need (f.set? c (!seen.contains '-')))

/-- A character that may stand in the name of a group. -/
def isNameChar (first : Bool) (c : Char) : Bool :=
  c = '_' || CharProperty.alphabetic.contains c ||
    (!first && (c = '.' || c = '[' || c = ']' || (CharProperty.category "N").contains c))

/-- The name of a group up to `>`, which is dropped. No two groups have one name. -/
def groupName : Reader Unit := do
  let text ← rest
  let name := text.takeWhile (· != '>')
  let isName := match name with
    | [] => false
    | c :: others => isNameChar true c && others.all (isNameChar false)
  let s ← get
  if isName && name.length < text.length && !s.names.contains name then
    set { s with rest := text.drop (name.length + 1), names := name :: s.names }
  else
    refuse

/-- The beginning of a group, after its parenthesis. It answers whether there is a group at all: a
list of flags alone holds for the rest of the group that it stands in. -/
def groupStart : Reader Bool := do
  skip
  let text ← rest
  if [['?', '='], ['?', '!'], ['?', '<', '='], ['?', '<', '!']].any (·.isPrefixOf text) then
    refuse
  if ← takeText ['?', 'P', '<'] then
    groupName
    return true
  if ← takeText ['?', '<'] then
    groupName
    return true
  if ← takeText ['?'] then
    let before ← rest
    let f ← flagLetters (before.length + 1) [] (← flags)
    let closer ← peek?
    drop 1
    setFlags f
    if closer = some ')' then
      if before.head? = some ')' then refuse else return false
    else
      return true
  return true

/-- The largest number of repetitions that can be written. -/
def maxCount : Nat := Nat.pow 2 32 - 1

/-- A decimal number among blanks; nothing if there are no digits. -/
def count : Reader (Option Nat) := do
  setRest ((← rest).dropWhile Text.isBlank)
  let digits ← takeAll Char.isDigit
  setRest ((← rest).dropWhile Text.isBlank)
  let value := digits.foldl (fun n c => 10 * n + (c.toNat - '0'.toNat)) 0
  if digits.isEmpty then return none else if value ≤ maxCount then return some value else refuse

/-- The rest of a counted repetition, after its opening brace. -/
def repetition : Reader (Nat × Option Nat) := do
  skip
  let least ← count
  let most ← match ← peek? with
    | some ',' =>
      let _ ← take
      if (← peek?) = some '}' then pure none else pure (some (← need (← count)))
    | _ => pure least
  if (← peek?) != some '}' then refuse
  let _ ← take
  let least ← need least
  match most with
  | some bound => if bound < least then refuse else return (least, most)
  | none => return (least, most)

/-- Drops the mark that asks for the shortest repetition first. -/
def lazyMark : Reader Unit := do
  let _ ← takeText ['?']

/-- What is being read of a group. -/
structure OpenGroup where
  /-- The alternatives that are complete. -/
  choice : Option Pattern := none
  /-- The parts of the latest alternative, backwards. A list of flags is a part that cannot be
  repeated. -/
  parts : List (Option Pattern) := []

namespace OpenGroup

/-- The latest alternative. -/
def branch (g : OpenGroup) : Pattern := Pattern.sequence (g.parts.reverse.filterMap id)

def value (g : OpenGroup) : Pattern :=
  match g.choice with
  | none => g.branch
  | some choice => .alt choice g.branch

def add (g : OpenGroup) (p : Pattern) : OpenGroup := { g with parts := some p :: g.parts }

/-- Begins the next alternative. -/
def next (g : OpenGroup) : OpenGroup := { choice := some g.value }

/-- Repeats the last part. -/
def repeatLast (g : OpenGroup) (least : Nat) (most : Option Nat) : Reader OpenGroup :=
  match g.parts with
  | some p :: before => return { g with parts := some (.repeated p least most) :: before }
  | _ => refuse

end OpenGroup

/-- The pattern of a single element. -/
def itemPattern (f : Flags) : Item → Reader Pattern
  | .char c => return .chars (f.fold (.single c))
  | .set s => if f.admits s then return .chars s else refuse
  | .anchor a word => return .anchor a word

/-- The set of the dot. -/
def dot (f : Flags) : CharSet :=
  if f.dotAll then .property .any
  else if f.crlf then .compl (.union (.single '\r') (.single '\n'))
  else .compl (.single '\n')

/-- An element that is neither group, class nor repetition. -/
def element : Reader Pattern := do
  let f ← flags
  match ← rest with
  | [] => refuse
  | c :: after =>
    setRest after
    match c with
    | '\\' => itemPattern f (← escape)
    | '.' => itemPattern f (.set (dot f))
    | '^' =>
      let a : Anchor :=
        if !f.multiLine then .textStart else if f.crlf then .lineStartCrlf else .lineStart
      return .anchor a f.word
    | '$' =>
      let a : Anchor :=
        if !f.multiLine then .textEnd else if f.crlf then .lineEndCrlf else .lineEnd
      return .anchor a f.word
    | _ => itemPattern f (.char c)

/-- The rest of a group, up to its closing parenthesis or the end of the text. -/
def group : Nat → OpenGroup → Reader Pattern
  | 0, _ => refuse
  | fuel + 1, g => do
    skip
    match ← rest with
    | [] => return g.value
    | c :: after =>
      match c with
      | ')' => return g.value
      | '|' =>
        setRest after
        group fuel g.next
      | '(' =>
        setRest after
        let outer ← flags
        if ← groupStart then
          let inner ← group fuel {}
          if (← peek?) != some ')' then refuse
          drop 1
          setFlags outer
          group fuel (g.add inner)
        else
          group fuel { g with parts := none :: g.parts }
      | '[' =>
        let _ ← take
        let set ← classBody (after.length + 1) (← classStart)
        group fuel (g.add (.chars set))
      | '?' =>
        setRest after
        lazyMark
        group fuel (← g.repeatLast 0 (some 1))
      | '*' =>
        setRest after
        lazyMark
        group fuel (← g.repeatLast 0 none)
      | '+' =>
        setRest after
        lazyMark
        group fuel (← g.repeatLast 1 none)
      | '{' =>
        setRest after
        let (least, most) ← repetition
        lazyMark
        group fuel (← g.repeatLast least most)
      | _ => group fuel (g.add (← element))

/-- A whole text. -/
def whole : Reader Pattern := do
  let text ← rest
  let p ← group (text.length + 1) {}
  if (← rest).isEmpty then return p else refuse

end Reader

/-- The pattern that a text writes. -/
def Pattern.read? (text : List Char) : Option Pattern :=
  (Reader.whole.run { rest := text }).map (·.1)

end TagExpr.Regex
