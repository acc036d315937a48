/-!
# Printing options

The white space that printing is free to choose: what indents a level, and what ends a line.
-/

namespace SyntaxForest

/-- The end of a line. -/
inductive Newline where
  | lineFeed
  | carriageReturnLineFeed
  deriving DecidableEq, Repr, Inhabited

/-- The characters that end a line. -/
def Newline.text : Newline → String
  | .lineFeed => "\n"
  | .carriageReturnLineFeed => "\r\n"

/-- The white space of printed source. -/
structure PrinterOptions where
  indentUnit : String := "    "
  newline : Newline := .lineFeed
  deriving DecidableEq, Repr, Inhabited

namespace PrinterOptions

/-- The indentation of a line at a depth: the unit once for each level.  Where nothing indents a
level the depth does not matter, however great. -/
def indent (o : PrinterOptions) (depth : Nat) : String :=
  if o.indentUnit = "" then ""
  else (List.replicate depth o.indentUnit).foldl (· ++ ·) ""

/-- The indentation is the unit, as often as the depth says. -/
theorem indent_eq (o : PrinterOptions) (depth : Nat) :
    o.indent depth = (List.replicate depth o.indentUnit).foldl (· ++ ·) "" := by
  unfold indent
  split
  · next empty =>
    rw [empty]
    induction depth with
    | zero => rfl
    | succ depth ih => simpa [List.replicate_succ] using ih
  · rfl

/-- The end of a line. -/
def newlineText (o : PrinterOptions) : String := o.newline.text

end PrinterOptions

end SyntaxForest
