import TagExpr.Double.Text
import TagExpr.Node

/-!
# Trees as text

A tree on one line, operator first, each node between parentheses. Texts are quoted, so a line never
breaks inside of one.
-/

namespace TagExpr

namespace Text

/-- A hexadecimal digit in lower case. -/
def hexDigit (n : Nat) : Char := (Nat.toDigits 16 n).getLastD '0'

/-- A character between quotes; controls are written as escapes. -/
def quoteChar (c : Char) : List Char :=
  if c = '"' then ['\\', '"']
  else if c = '\\' then ['\\', '\\']
  else if c = '\x08' then ['\\', 'b']
  else if c = '\x0c' then ['\\', 'f']
  else if c = '\n' then ['\\', 'n']
  else if c = '\r' then ['\\', 'r']
  else if c = '\t' then ['\\', 't']
  else if c.toNat < 0x20 then
    ['\\', 'u', '0', '0', hexDigit (c.toNat / 16), hexDigit (c.toNat % 16)]
  else [c]

/-- A text between double quotes. -/
def quote (s : String) : String := "\"" ++ String.ofList (s.toList.flatMap quoteChar) ++ "\""

end Text

/-- The text of a constant. -/
def Literal.render : Literal → String
  | null => "null"
  | bool b => if b then "true" else "false"
  | int n => toString n.toInt
  | double d => d.render
  | str s => Text.quote s

/-- A look-up as a mark: a tilde, a caret with the number of levels, or a slash. -/
def Lookup.render : Lookup → String
  | unstated => "~"
  | backreach levels => "^" ++ toString levels
  | root => "/"

namespace Node

/-- Words between parentheses. -/
def spaced (words : List String) : String := "(" ++ " ".intercalate words ++ ")"

mutual

/-- The text of a tree. -/
def render : Node → String
  | .literal v => v.render
  | .regex source => spaced ["regex", Text.quote source]
  | .current levels => spaced ["current", toString levels]
  | .internal lookup name => spaced ["internal", lookup.render, name.name]
  | .localVar slot => spaced ["local", toString slot]
  | .binding template slot => spaced ["binding", toString template, toString slot]
  | .identifier ident lookup => spaced ["ident", toString ident, lookup.render]
  | .call ident lookup args =>
    spaced ("call" :: toString ident :: lookup.render :: renderList args)
  | .member receiver ident safe =>
    spaced [if safe then "member?" else "member", render receiver, toString ident]
  | .method receiver ident args safe =>
    spaced ((if safe then "method?" else "method") :: render receiver :: toString ident ::
      renderList args)
  | .index receiver key safe =>
    spaced [if safe then "index?" else "index", render receiver, render key]
  | .named target args => spaced ("named" :: toString target :: renderList args)
  | .recurse args => spaced ("recurse" :: renderList args)
  | .annotated name args => spaced ("annotation" :: name :: renderList args)
  | .unary op operand => spaced ["unary", op.symbol, render operand]
  | .binary op left right => spaced ["binary", op.symbol, render left, render right]
  | .ternary condition yes no => spaced ["ternary", render condition, render yes, render no]
  | .concat parts => spaced ("concat" :: renderList parts)
  | .list items => spaced ("list" :: renderList items)
  | .set items => spaced ("set" :: renderList items)
  | .map entries => spaced ("map" :: renderEntries entries)
  | .assignLocal slot value => spaced ["assign-local", toString slot, render value]
  | .assignBinding template slot value =>
    spaced ["assign-binding", toString template, toString slot, render value]
  | .sequence items => spaced ("seq" :: renderList items)
  | .stream op source slot body =>
    spaced ["stream", op.symbol, (slot.map toString).getD "_", render source, render body]
termination_by structural n => n

/-- The texts of some trees. -/
def renderList : List Node → List String
  | [] => []
  | n :: rest => render n :: renderList rest

/-- The texts of the entries of a map literal. -/
def renderEntries : List (Node × Node) → List String
  | [] => []
  | entry :: rest => renderEntry entry :: renderEntries rest

/-- The text of an entry. -/
def renderEntry : Node × Node → String
  | (key, value) => spaced [render key, render value]

end

instance : ToString Node := ⟨render⟩

end Node

end TagExpr
