import TagExpr.Node

/-!
# The patterns of a tree

The sources of the pattern literals of a tree, which have to be checked before it can run.
-/

namespace TagExpr.Node

mutual

/-- The sources of the pattern literals, from left to right. -/
def patterns : Node → List String
  | .regex source => [source]
  | .literal _ | .current _ | .internal _ _ | .localVar _ | .binding _ _ | .identifier _ _ => []
  | .call _ _ args | .named _ args | .recurse args | .annotated _ args => patternsOfList args
  | .member receiver _ _ => patterns receiver
  | .method receiver _ args _ => patterns receiver ++ patternsOfList args
  | .index receiver key _ => patterns receiver ++ patterns key
  | .unary _ operand => patterns operand
  | .binary _ left right => patterns left ++ patterns right
  | .ternary condition yes no => patterns condition ++ patterns yes ++ patterns no
  | .concat items | .list items | .set items | .sequence items => patternsOfList items
  | .map entries => patternsOfEntries entries
  | .assignLocal _ value | .assignBinding _ _ value => patterns value
  | .stream _ source _ body => patterns source ++ patterns body
termination_by structural n => n

/-- The patterns of some trees. -/
def patternsOfList : List Node → List String
  | [] => []
  | n :: rest => patterns n ++ patternsOfList rest

/-- The patterns of the entries of a map literal. -/
def patternsOfEntries : List (Node × Node) → List String
  | [] => []
  | e :: rest => patternsOfEntry e ++ patternsOfEntries rest

/-- The patterns of one entry. -/
def patternsOfEntry : Node × Node → List String
  | (key, value) => patterns key ++ patterns value

end

end TagExpr.Node
