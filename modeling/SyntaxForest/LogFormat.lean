/-!
# Log formats

The name of a log format, as a user gives it.
-/

namespace SyntaxForest

/-- How log lines are written. -/
inductive LogFormat where
  | text
  | tree
  | json
  deriving DecidableEq, Repr

/-- The format of a name in letters of either case; plain text for a name that is not known. -/
def LogFormat.ofName (name : String) : LogFormat :=
  let letters := name.toList.map Char.toLower
  if letters == "tree".toList then .tree
  else if letters == "json".toList then .json
  else .text

end SyntaxForest
