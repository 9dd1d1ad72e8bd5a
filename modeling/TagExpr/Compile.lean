import TagExpr.Expression
import TagExpr.Node.Equality
import TagExpr.Node.Patterns
import TagExpr.Parse.Parser
import TagExpr.Regex
import TagExpr.Text.Blank

/-!
# Compiling

From the text of a tag to a compiled expression. A compiler keeps the programs it has seen, so that
equal trees run one program; a template file keeps its identifiers and named expressions. A text
that does not compile leaves neither behind, but the bindings that it has declared stay.
-/

namespace TagExpr

/-- What is shared by all template files. -/
structure Compiler where
  /-- The trees seen so far; a program is known by its place among them. -/
  programs : List Node := []
  /-- The number of identifiers made so far. -/
  identifierCount : Nat := 0
  deriving Inhabited

/-- A template file whose tags are compiled one after the other. -/
structure Template where
  scope : TemplateScope Expression
  /-- The identifiers of the file. -/
  identifiers : List IdentifierRef := []
  deriving Inhabited

namespace Template

def fresh (extensions : Extensions := .all) : Template := { scope := .fresh extensions }

end Template

namespace Compiler

/-- The number of programs. -/
def size (c : Compiler) : Nat := c.programs.length

/-- The program of a tree, which is new unless an equal tree has been seen; there is none for a tree
with a bad pattern. -/
def program? (c : Compiler) (n : Node) : Option (Nat × Compiler) :=
  match c.programs.findIdx? (· == n) with
  | some found => some (found, c)
  | none =>
    if n.patterns.all fun source => (Regex.compile? source).isSome then
      some (c.size, { c with programs := c.programs ++ [n] })
    else none

/-- The identifier of a member in a template file. -/
def identifier (c : Compiler) (known : List IdentifierRef) (key : IdentKey) :
    IdentifierRef × List IdentifierRef × Compiler :=
  match known.find? (·.key == key) with
  | some ref => (ref, known, c)
  | none =>
    let ref : IdentifierRef := ⟨c.identifierCount, key⟩
    (ref, ref :: known, { c with identifierCount := c.identifierCount + 1 })

/-- The identifiers of some members in a template file. -/
def identifiers (c : Compiler) (known : List IdentifierRef) :
    List IdentKey → List IdentifierRef × List IdentifierRef × Compiler
  | [] => ([], known, c)
  | key :: rest =>
    let (ref, known, c) := c.identifier known key
    let (refs, known, c) := c.identifiers known rest
    (ref :: refs, known, c)

/-- The label of an expression: its name and number of parameters, or its text. -/
def label (parsed : Parsed Expression) (text : String) : String :=
  match parsed.name with
  | some name => name ++ "/" ++ toString parsed.params
  | none => Text.trim text

/-- The error of a pattern literal that is no pattern; it has the place of the whole expression. -/
def badPattern (parsed : Parsed Expression) : ParseError := ⟨.invalidLiteral, parsed.span⟩

/-- Compiles a text that begins `offset` bytes into its template file. A definition can be called
from then on. -/
def compile (c : Compiler) (t : Template) (text : String) (offset : Nat) :
    Except ParseError Expression × Template × Compiler :=
  match parse text offset t.scope with
  | (.error error, scope) => (.error error, { t with scope }, c)
  | (.ok parsed, scope) =>
    match c.program? parsed.node with
    | none =>
      let scope := match parsed.name with
        | some name => scope.abandon name
        | none => scope
      (.error (badPattern parsed), { t with scope }, c)
    | some (program, c) =>
      let (refs, known, c) := c.identifiers t.identifiers parsed.identifiers
      let e : Expression := {
        name := parsed.name
        callName := label parsed text
        span := parsed.span
        params := parsed.params
        localCount := parsed.localCount
        output := parsed.output
        identifiers := refs
        expressions := parsed.expressions
        program
        body := parsed.node }
      let scope := match parsed.name with
        | some name => scope.complete name e
        | none => scope
      (.ok e, { scope, identifiers := known }, c)

end Compiler

end TagExpr
