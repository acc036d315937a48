/-!
# Blank characters

The characters with the Unicode property `White_Space`, and texts without blanks at their ends.
Line breaks are blank.

`trim` looks at the ends of a text only, so that a long text between them costs no more than its
copy; `toList_trim` says what it does to the characters.
-/

namespace SyntaxForest

/-- Whether a character has the Unicode property `White_Space`. -/
def isBlank (c : Char) : Bool :=
  let n := c.toNat
  (0x09 ≤ n && n ≤ 0x0D) || n == 0x20 || n == 0x85 || n == 0xA0 || n == 0x1680 ||
    (0x2000 ≤ n && n ≤ 0x200A) || n == 0x2028 || n == 0x2029 || n == 0x202F || n == 0x205F ||
    n == 0x3000

/-- A list of characters without the blanks at its ends. -/
def trimmed (cs : List Char) : List Char :=
  ((cs.dropWhile isBlank).reverse.dropWhile isBlank).reverse

/-- A text without the blanks at its ends. -/
def trim (s : String) : String := ((s.toSlice.dropWhile isBlank).dropEndWhile isBlank).copy

/-! ## Characters of a trimmed text -/

/-- What is dropped from the front ends where the first other character stands. -/
theorem dropWhile_append_of_all {α : Type} {p : α → Bool} {left right : List α} (h : left.all p)
    (g : right.head?.any p = false) : (left ++ right).dropWhile p = right := by
  induction left with
  | nil => cases right <;> simp_all
  | cons a left ih => simp_all

/-- Dropping characters from the front of a slice. -/
theorem toList_dropWhile (s : String.Slice) (p : Char → Bool) :
    (s.dropWhile p).copy.toList = s.copy.toList.dropWhile p := by
  have parts : (s.takeWhile p).copy ++ (s.dropWhile p).copy = s.copy :=
    String.Slice.takeWhile_append_dropWhile
  have taken : (s.takeWhile p).copy.toList.all p := by
    rw [← String.Slice.all_bool_eq]
    exact String.Slice.all_takeWhile
  have left : (s.dropWhile p).copy.toList.head?.any p = false := by
    rw [← String.Slice.startsWith_bool_eq_head?]
    exact String.Slice.startsWith_dropWhile
  rw [← parts, String.toList_append, dropWhile_append_of_all taken left]

/-- Dropping characters from the end of a slice. -/
theorem toList_dropEndWhile (s : String.Slice) (p : Char → Bool) :
    (s.dropEndWhile p).copy.toList = (s.copy.toList.reverse.dropWhile p).reverse := by
  have parts : (s.dropEndWhile p).copy ++ (s.takeEndWhile p).copy = s.copy :=
    String.Slice.dropEndWhile_append_takeEndWhile
  have taken : (s.takeEndWhile p).copy.toList.reverse.all p := by
    rw [List.all_reverse, ← String.Slice.revAll_bool_eq]
    exact String.Slice.revAll_takeEndWhile
  have left : (s.dropEndWhile p).copy.toList.reverse.head?.any p = false := by
    rw [List.head?_reverse, ← String.Slice.endsWith_bool_eq_getLast?]
    exact String.Slice.endsWith_dropEndWhile
  rw [← parts, String.toList_append, List.reverse_append, dropWhile_append_of_all taken left,
    List.reverse_reverse]

/-- Trimming a text trims its characters. -/
theorem toList_trim (s : String) : (trim s).toList = trimmed s.toList := by
  rw [trim, toList_dropEndWhile, toList_dropWhile, String.copy_toSlice, trimmed]

end SyntaxForest
