import TagExpr.Double.Text
import TagExpr.Host

/-!
# The text of values

How values are written to the output. Collections are written with their members between brackets,
so the text of a value does not tell a text from a name.
-/

namespace TagExpr.Value

mutual

/-- The text of a value. -/
def display (h : Host) : Value → String
  | null => "null"
  | bool b => if b then "true" else "false"
  | int n => toString n.toInt
  | double d => d.render
  | str s => s
  | list items => "[" ++ ", ".intercalate (displayList h items) ++ "]"
  | map entries =>
    if entries.isEmpty then "[:]"
    else "[" ++ ", ".intercalate (displayEntries h entries) ++ "]"
  | set items => "\x7b" ++ ", ".intercalate (displayList h items) ++ "\x7d"
  | range r => r.render
  | regex r => r.source
  | stream _ => "<stream>"
  | object _ tag carrier content => h.objectText tag carrier content
  | type tag => tag.name
termination_by structural v => v

/-- The texts of some values. -/
def displayList (h : Host) : List Value → List String
  | [] => []
  | v :: rest => display h v :: displayList h rest

/-- The texts of the entries of a map. -/
def displayEntries (h : Host) : List (Value × Value) → List String
  | [] => []
  | e :: rest => displayEntry h e :: displayEntries h rest

/-- The text of an entry. -/
def displayEntry (h : Host) : Value × Value → String
  | (k, v) => display h k ++ ": " ++ display h v

end

@[simp] theorem display_str (h : Host) (s : String) : (str s).display h = s := by rw [display]

end TagExpr.Value
