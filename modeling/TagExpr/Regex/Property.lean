import TagExpr.Regex.CharSet

/-!
# The names of character properties

The names that stand between the braces of `\p{…}` and between the colons of `[:…:]`. Case, blanks,
underscores and hyphens do not count in a property name, nor does a leading `is`.
-/

namespace TagExpr.Regex

namespace CharProperty

/-- The name in the form in which names are compared. -/
def looseName (name : List Char) : String :=
  let plain := fun (cs : List Char) =>
    String.ofList ((cs.filter fun c => c.toNat < 128 && c != ' ' && c != '_' && c != '-').map
      Char.toLower)
  match name with
  | i :: s :: rest => if i.toLower = 'i' && s.toLower = 's' then plain rest else plain name
  | _ => plain name

/-- The names of the general categories and of their groups, with the letters that begin the names
of the categories they hold. -/
def categoryNames : List (List String × String) := [
  (["c", "other"], "C"), (["cc", "control", "cntrl"], "Cc"), (["cf", "format"], "Cf"),
  (["cn", "unassigned"], "Cn"), (["co", "privateuse"], "Co"),
  (["l", "letter"], "L"), (["ll", "lowercaseletter"], "Ll"), (["lm", "modifierletter"], "Lm"),
  (["lo", "otherletter"], "Lo"), (["lt", "titlecaseletter"], "Lt"),
  (["lu", "uppercaseletter"], "Lu"),
  (["m", "mark", "combiningmark"], "M"), (["mc", "spacingmark"], "Mc"),
  (["me", "enclosingmark"], "Me"), (["mn", "nonspacingmark"], "Mn"),
  (["n", "number"], "N"), (["nd", "decimalnumber", "digit"], "Nd"), (["nl", "letternumber"], "Nl"),
  (["no", "othernumber"], "No"),
  (["p", "punctuation", "punct"], "P"), (["pc", "connectorpunctuation"], "Pc"),
  (["pd", "dashpunctuation"], "Pd"), (["pe", "closepunctuation"], "Pe"),
  (["pf", "finalpunctuation"], "Pf"), (["pi", "initialpunctuation"], "Pi"),
  (["po", "otherpunctuation"], "Po"), (["ps", "openpunctuation"], "Ps"),
  (["s", "symbol"], "S"), (["sc", "currencysymbol"], "Sc"), (["sk", "modifiersymbol"], "Sk"),
  (["sm", "mathsymbol"], "Sm"), (["so", "othersymbol"], "So"),
  (["z", "separator"], "Z"), (["zl", "lineseparator"], "Zl"), (["zp", "paragraphseparator"], "Zp"),
  (["zs", "spaceseparator"], "Zs")]

/-- The general category or group of that name. -/
def categoryNamed? (loose : String) : Option CharProperty :=
  match loose with
  | "any" => some any
  | "ascii" => some ascii
  | "assigned" => some assigned
  | "lc" | "casedletter" => some casedLetter
  | _ => (categoryNames.find? fun (names, _) => names.contains loose).map fun (_, start) =>
    category start

/-- The other names of scripts, with the names that the table of scripts uses. -/
def scriptNames : List (List String × String) := [
  (["arabic", "arab"], "Arabic"), (["armenian", "armn"], "Armenian"),
  (["cyrillic", "cyrl"], "Cyrillic"), (["devanagari", "deva"], "Devanagari"),
  (["greek", "grek"], "Greek"), (["han", "hani"], "Han"), (["hangul", "hang"], "Hangul"),
  (["hebrew", "hebr"], "Hebrew"), (["hiragana", "hira"], "Hiragana"),
  (["katakana", "kana"], "Katakana"), (["latin", "latn"], "Latin"), (["thai"], "Thai")]

def scriptNamed? (loose : String) : Option CharProperty :=
  (scriptNames.find? fun (names, _) => names.contains loose).map fun (_, name) => script name

/-- The property that is true or false of a character. -/
def binaryNamed? (loose : String) : Option CharProperty :=
  match loose with
  | "alphabetic" | "alpha" => some alphabetic
  | "uppercase" | "upper" => some uppercase
  | "lowercase" | "lower" => some lowercase
  | "whitespace" | "space" | "wspace" => some blank
  | "cased" => some cased
  | "caseignorable" | "ci" => some caseIgnorable
  | _ => none

/-- The property of a single name: true or false of a character, a general category or a script. -/
def named? (name : List Char) : Option CharProperty :=
  let loose := looseName name
  binaryNamed? loose <|> categoryNamed? loose <|> scriptNamed? loose

/-- The property of a value and the name of what it is a value of. -/
def valued? (name value : List Char) : Option CharProperty :=
  match looseName name with
  | "gc" | "generalcategory" => categoryNamed? (looseName value)
  | "sc" | "script" | "scx" | "scriptextensions" => scriptNamed? (looseName value)
  | _ => none

end CharProperty

namespace CharSet

/-- The classes of ASCII characters by the names between `[:` and `:]`. -/
def asciiClass? (name : List Char) : Option CharSet :=
  let lower := range 'a' 'z'
  let upper := range 'A' 'Z'
  let digit := range '0' '9'
  let alpha := union upper lower
  match String.ofList name with
  | "alnum" => some (union digit alpha)
  | "alpha" => some alpha
  | "ascii" => some (property .ascii)
  | "blank" => some (union (single ' ') (single '\t'))
  | "cntrl" => some (union (range '\x00' '\x1f') (single '\x7f'))
  | "digit" => some digit
  | "graph" => some (range '!' '~')
  | "lower" => some lower
  | "print" => some (range ' ' '~')
  | "punct" => some (unions [range '!' '/', range ':' '@', range '[' '\x60', range '\x7b' '~'])
  | "space" => some (union (range '\t' '\r') (single ' '))
  | "upper" => some upper
  | "word" => some (unions [digit, alpha, single '_'])
  | "xdigit" => some (unions [digit, range 'A' 'F', range 'a' 'f'])
  | _ => none

end CharSet

end TagExpr.Regex
