import SyntaxForest.AnnotationSet
import SyntaxForest.Change
import SyntaxForest.Json.Record
import SyntaxForest.Kind
import SyntaxForest.Link
import SyntaxForest.Source.Options

/-!
# The stored form of values

How the small values of a forest are written as JSON and read again.  Writing is a function to
`Json`; reading takes the text as it stands (`Json.Raw`), so that a number's spelling and a
repeated field are seen.  Nothing is checked beyond the types.  A name without a question mark
writes, the name with it reads.
-/

namespace SyntaxForest

namespace Stored

open Json (Raw)

/-! ## Numbers -/

/-- The number that stands for no node and for no contents. -/
def absent : Nat := 2 ^ 32 - 1

/-- A number of 32 bits with a sign. -/
def int32 (v : Int32) : Json := .int v.toInt

def int32? (raw : Raw) : Option Int32 := (raw.intIn? (-2 ^ 31) (2 ^ 31 - 1)).map Int32.ofInt

/-- A place, or none. -/
def place (x : Option Nat) : Json := .int (x.getD absent)

def place? (raw : Raw) : Option (Option Nat) :=
  (raw.intIn? 0 absent).map fun (n : Int) => if n = absent then none else some n.toNat

/-- An identity. -/
def id (n : Nat) : Json := .int n

def id? (raw : Raw) : Option Nat := (raw.intIn? 0 (2 ^ 64 - 1)).map Int.toNat

/-! ## Cases without contents -/

/-- A kind by its name. -/
def kind (k : Kind) : Json := .string k.toString

def kind? (raw : Raw) : Option Kind := raw.case?.bind Kind.ofString?

/-- A keyword by its name. -/
def keyword (k : Keyword) : Json := .string k.name

def keyword? (raw : Raw) : Option Keyword := raw.case?.bind Keyword.ofName?

/-- A status by its name. -/
def change (c : Change) : Json := .string c.name

def change? (raw : Raw) : Option Change := raw.case?.bind Change.ofName?

/-- A line end by its name. -/
def newline : Newline → Json
  | .lineFeed => .string "linefeed"
  | .carriageReturnLineFeed => .string "carriagereturnlinefeed"

/-- A line end by its name or its short name. -/
def newline? (raw : Raw) : Option Newline :=
  match raw.case? with
  | some "linefeed" | some "lf" => some .lineFeed
  | some "carriagereturnlinefeed" | some "crlf" => some .carriageReturnLineFeed
  | _ => none

/-! ## Compounds -/

/-- A field that a record must have. -/
def required {α : Type} (read : Raw → Option α) (field : Option Raw) : Option α := field.bind read

/-- A field that a record may lack, or give as `null`. -/
def optional {α : Type} (read : Raw → Option α) : Option Raw → Option (Option α)
  | none => some none
  | some raw => raw.optional? read

/-- A field that has a default. -/
def defaulted {α : Type} (default : α) (read : Raw → Option α) : Option Raw → Option α
  | none => some default
  | some raw => read raw

/-- An annotation set, as the list of its records. -/
def annotations (set : AnnotationSet) : Json := set.toJson

/-- A set is read as it was written; equal records in it are not looked for. -/
def annotations? (raw : Raw) : Option AnnotationSet := (raw.list? Raw.value?).map (⟨·⟩)

/-- A list of children. -/
def links (xs : List Link) : Json := .object [("nodes", .array (xs.map place))]

def links? (raw : Raw) : Option (List Link) := do
  let [nodes] ← raw.record? ["nodes"] 1 | none
  required (Raw.list? place?) nodes

/-- Printer options. -/
def options (o : PrinterOptions) : Json :=
  .object [("indentUnit", .string o.indentUnit), ("newline", newline o.newline)]

/-- Options in which whatever is missing is as usual. -/
def options? (raw : Raw) : Option PrinterOptions := do
  let [indentUnit, newline] ← raw.record? ["indentUnit", "newline"] 0 | none
  return {
    indentUnit := ← defaulted "    " Raw.string? indentUnit
    newline := ← defaulted .lineFeed newline? newline }

end Stored

end SyntaxForest
