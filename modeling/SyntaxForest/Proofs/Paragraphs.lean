import SyntaxForest.Proofs.Lines

/-!
# Paragraphs

How a statement is laid out, whatever the depth and the white space are.  A paragraph consists of
pieces, each of which is a fragment of a line or the start of a new line (`Piece`), with some blanks
in front.  Behind a word in the same line a statement has the same pieces as in lines of its own,
but not the blanks: trimming what is printed takes the indentation, the blanks and the last line end
(`Paragraph.toList_trim`).  So a compound is laid out by putting the pieces of its parts together.

At last the pieces are cut into lines (`Paragraph.text_lines`).
-/

namespace SyntaxForest

/-! ## Pieces -/

/-- A piece of source: a fragment of a line, or the start of a line at a level. -/
inductive Piece where
  | text (fragment : Fragment)
  | line (level : Nat)
  deriving DecidableEq, Repr

namespace Piece

/-- The characters of a piece.  A line starts with the end of the line before it. -/
def chars (o : PrinterOptions) (depth : Nat) : Piece → List Char
  | .text fragment => fragment.chars
  | .line level => o.newlineText.toList ++ (o.indent (depth + level)).toList

/-- The piece one level deeper. -/
def deeper : Piece → Piece
  | .text fragment => .text fragment
  | .line level => .line (level + 1)

/-- The characters of pieces, one after the other. -/
def spell (o : PrinterOptions) (depth : Nat) (pieces : List Piece) : List Char :=
  pieces.flatMap (chars o depth)

section

variable (o : PrinterOptions) (depth : Nat)

@[simp] theorem spell_nil : spell o depth [] = [] := rfl

@[simp] theorem spell_text (fragment : Fragment) (pieces : List Piece) :
    spell o depth (.text fragment :: pieces) = fragment.chars ++ spell o depth pieces :=
  List.flatMap_cons ..

@[simp] theorem spell_line (level : Nat) (pieces : List Piece) :
    spell o depth (.line level :: pieces) =
      o.newlineText.toList ++ ((o.indent (depth + level)).toList ++ spell o depth pieces) :=
  (List.flatMap_cons ..).trans (List.append_assoc ..)

@[simp] theorem spell_append (pieces more : List Piece) :
    spell o depth (pieces ++ more) = spell o depth pieces ++ spell o depth more :=
  List.flatMap_append ..

/-- Deeper pieces are the same pieces at a greater depth. -/
@[simp] theorem spell_deeper (pieces : List Piece) :
    spell o depth (pieces.map deeper) = spell o (depth + 1) pieces := by
  induction pieces with
  | nil => rfl
  | cons piece pieces ih =>
    cases piece <;> simp [deeper, ih, Nat.add_comm, Nat.add_left_comm]

end

/-- The lines into which pieces are cut, from within a line. -/
def lines (level : Nat) (before : Fragment) : List Piece → List Line
  | [] => [⟨level, before⟩]
  | .text fragment :: rest => lines level (before ++ fragment) rest
  | .line level' :: rest => ⟨level, before⟩ :: lines level' ⟨[], by decide⟩ rest

theorem text_lines (o : PrinterOptions) (depth level : Nat) (before : Fragment)
    (pieces : List Piece) : Line.text o depth (lines level before pieces) =
      (o.indent (depth + level)).toList ++
        (before.chars ++ (spell o depth pieces ++ o.newlineText.toList)) := by
  induction pieces generalizing level before with
  | nil => simp [lines, Line.text, Line.written]
  | cons piece pieces ih =>
    cases piece with
    | text fragment => simp [lines, ih]
    | line level' =>
      rw [lines, Line.text, List.flatMap_cons]
      show Line.written o depth _ ++ Line.text o depth _ = _
      rw [ih]
      simp [Line.written]

/-- However they are written, pieces end with a character that shows. -/
def EndVisibly (pieces : List Piece) : Prop := ∀ o depth, EndsVisibly (spell o depth pieces)

theorem EndVisibly.behind {pieces : List Piece} (h : EndVisibly pieces) (front : List Piece) :
    EndVisibly (front ++ pieces) := fun o depth => by
  rw [spell_append]
  exact (h o depth).append _

/-- The last character of pieces. -/
theorem EndVisibly.last {last : Char} (shows : isBlank last = false) (init : List Char)
    (unbroken : isUnbroken (init ++ [last])) : EndVisibly [.text ⟨init ++ [last], unbroken⟩] :=
  fun _ _ => ⟨init, last, by simp, shows⟩

end Piece

/-! ## Paragraphs -/

/-- How a statement is laid out: the blanks in front, and the pieces behind them, which start and
end with characters that show. -/
structure Paragraph where
  lead : Fragment
  pieces : List Piece
  blank : lead.chars.all isBlank
  starts : ∀ o depth, ∃ first more, Piece.spell o depth pieces = first :: more ∧
    isBlank first = false
  ends : Piece.EndVisibly pieces

namespace Paragraph

open Piece

variable (o : PrinterOptions) (depth : Nat)

/-- What is printed for a statement that is laid out like this. -/
def printed (l : Paragraph) : List Char :=
  (o.indent depth).toList ++ (l.lead.chars ++ (spell o depth l.pieces ++ o.newlineText.toList))

variable {o} in
/-- **Trimming leaves the pieces.** -/
theorem toList_trim (ho : o.IsPlain) (l : Paragraph) :
    (trim (String.ofList (l.printed o depth))).toList = spell o depth l.pieces := by
  have indent : ((o.indent depth).toList ++ l.lead.chars).all isBlank := by
    rw [List.all_append, l.blank, Bool.and_true, List.all_eq_true]
    intro c hc
    rcases ho.of_mem_indent depth c hc with rfl | rfl <;> rfl
  have ending : o.newlineText.toList.all isBlank := by
    unfold PrinterOptions.newlineText
    cases o.newline <;> decide
  rw [SyntaxForest.toList_trim, String.toList_ofList, printed, ← List.append_assoc]
  exact trimmed_of_visible indent ending (l.starts o depth) (l.ends o depth)

/-- The lines of a statement. -/
def lines (l : Paragraph) : List Line := Piece.lines 0 l.lead l.pieces

/-- **What is printed is what the lines are.** -/
theorem text_lines (l : Paragraph) : Line.text o depth l.lines = l.printed o depth :=
  Piece.text_lines o depth 0 l.lead l.pieces

/-- A statement in lines of its own, one level deeper than what they belong to. -/
def ownLines (l : Paragraph) : List Piece := .line 1 :: .text l.lead :: l.pieces.map deeper

@[simp] theorem spell_ownLines (l : Paragraph) :
    spell o depth l.ownLines ++ o.newlineText.toList =
      o.newlineText.toList ++ l.printed o (depth + 1) := by
  simp [ownLines, printed]

theorem ownLines_endVisibly (l : Paragraph) : EndVisibly l.ownLines := fun o depth => by
  have ends := l.ends o (depth + 1)
  rw [← spell_deeper] at ends
  exact (ends.append _).append _

/-- A paragraph without blanks in front. -/
def flush (first : Char) (more : List Char) (unbroken : isUnbroken (first :: more))
    (shows : isBlank first = false) (pieces : List Piece)
    (ends : EndVisibly (.text ⟨first :: more, unbroken⟩ :: pieces)) : Paragraph where
  lead := ⟨[], by decide⟩
  pieces := .text ⟨first :: more, unbroken⟩ :: pieces
  blank := rfl
  starts _ _ := ⟨first, _, spell_text .., shows⟩
  ends := ends

@[simp] theorem printed_flush {first : Char} {more : List Char}
    (unbroken : isUnbroken (first :: more)) (shows : isBlank first = false) {pieces : List Piece}
    (ends : EndVisibly (.text ⟨first :: more, unbroken⟩ :: pieces)) :
    (flush first more unbroken shows pieces ends).printed o depth =
      (o.indent depth).toList ++
        first :: (more ++ (spell o depth pieces ++ o.newlineText.toList)) := by
  simp [flush, printed]

/-! ### Statements -/

/-- A statement behind something in the same line, or in a line of its own at the level of what it
belongs to. -/
def branch (inline : Bool) (l : Paragraph) : List Piece :=
  if inline then l.pieces else .line 1 :: l.pieces

/-- A statement behind something in the same line, or in lines of its own. -/
def body (inline : Bool) (l : Paragraph) : List Piece := if inline then l.pieces else l.ownLines

@[simp] theorem spell_branch (inline : Bool) (l : Paragraph) : spell o depth (l.branch inline) =
    (if inline then [] else o.newlineText.toList ++ (o.indent (depth + 1)).toList) ++
      spell o depth l.pieces := by
  cases inline <;> simp [branch]

theorem branch_endVisibly (inline : Bool) (l : Paragraph) : EndVisibly (l.branch inline) := by
  unfold branch
  split
  · exact l.ends
  · exact l.ends.behind [_]

@[simp] theorem spell_body (inline : Bool) (l : Paragraph) :
    spell o depth (l.body inline) ++ o.newlineText.toList =
      if inline then spell o depth l.pieces ++ o.newlineText.toList
      else o.newlineText.toList ++ l.printed o (depth + 1) := by
  cases inline <;> simp [body]

theorem body_endVisibly (inline : Bool) (l : Paragraph) : EndVisibly (l.body inline) := by
  unfold body
  split
  · exact l.ends
  · exact l.ownLines_endVisibly

theorem spell_flatMap_ownLines (ls : List Paragraph) (rest : List Char) :
    spell o depth (ls.flatMap ownLines) ++ (o.newlineText.toList ++ rest) =
      o.newlineText.toList ++ (ls.flatMap (printed o (depth + 1)) ++ rest) := by
  induction ls with
  | nil => simp
  | cons l ls ih =>
    rw [List.flatMap_cons, spell_append, List.append_assoc, ih, ← List.append_assoc,
      spell_ownLines, List.append_assoc, List.flatMap_cons, List.append_assoc]

/-- Nothing but a semicolon. -/
def empty : Paragraph := .flush ';' [] (by decide) (by decide) [] (.last (by decide) [] (by decide))

/-- An expression with a semicolon behind it.  Trimming takes the blanks in front of it. -/
def expression (e : Fragment) : Paragraph where
  lead := ⟨_, isUnbroken_of_sublist (List.takeWhile_sublist isBlank) e.unbroken⟩
  pieces := [.text ⟨_, isUnbroken_of_sublist (List.dropWhile_sublist isBlank) e.unbroken⟩,
    .text ⟨[';'], by decide⟩]
  blank := List.all_takeWhile
  starts o depth := by
    have head := List.head?_dropWhile_not isBlank e.chars
    rw [spell_text, spell_text]
    show ∃ first more, e.chars.dropWhile isBlank ++ [';'] = first :: more ∧ isBlank first = false
    cases rest : e.chars.dropWhile isBlank with
    | nil => exact ⟨';', [], rfl, rfl⟩
    | cons first more =>
      rw [rest] at head
      exact ⟨first, more ++ [';'], rfl, head⟩
  ends := (EndVisibly.last (by decide) [] (by decide)).behind [_]

@[simp] theorem printed_expression (e : Fragment) : (expression e).printed o depth =
    (o.indent depth).toList ++ (e.chars ++ ';' :: o.newlineText.toList) := by
  rw [printed, expression, spell_text, spell_text]
  show _ ++ (e.chars.takeWhile isBlank ++ (e.chars.dropWhile isBlank ++ [';'] ++ _)) = _
  rw [List.append_assoc, ← List.append_assoc (e.chars.takeWhile isBlank),
    List.takeWhile_append_dropWhile]
  rfl

/-- A condition without an alternative. -/
def conditional (test : Fragment) (inline : Bool) (l : Paragraph) : Paragraph :=
  flush 'i' ['f', ' ', '('] (by decide) (by decide)
    (.text test :: .text ⟨[')', ' '], by decide⟩ :: l.branch inline)
    ((l.branch_endVisibly inline).behind [_, _, _])

/-- The word between the branches of a condition, behind a branch in the same line or at the start
of a line. -/
def elseWord (inline : Bool) : List Piece :=
  if inline then [.text ⟨[' ', 'e', 'l', 's', 'e', ' '], by decide⟩]
  else [.line 0, .text ⟨['e', 'l', 's', 'e', ' '], by decide⟩]

/-- A condition with two branches. -/
def alternative (test : Fragment) (inline : Bool) (l : Paragraph) (inline' : Bool)
    (l' : Paragraph) : Paragraph :=
  flush 'i' ['f', ' ', '('] (by decide) (by decide)
    (.text test :: .text ⟨[')', ' '], by decide⟩ ::
      (l.branch inline ++ (elseWord inline ++ l'.branch inline')))
    ((((l'.branch_endVisibly inline').behind _).behind _).behind [_, _, _])

/-- Statements in one line, each behind a word. -/
def inTurn (word : Fragment) (ls : List Paragraph) : List Piece :=
  ls.flatMap fun l => .text word :: l.pieces

theorem spell_inTurn (word : Fragment) (ls : List Paragraph) :
    spell o depth (inTurn word ls) =
      ls.flatMap fun l => word.chars ++ spell o depth l.pieces := by
  induction ls with
  | nil => rfl
  | cons l ls ih => simpa [inTurn] using ih

theorem inTurn_endVisibly {front : List Piece} (h : EndVisibly front) (word : Fragment)
    (ls : List Paragraph) : EndVisibly (front ++ inTurn word ls) := by
  induction ls generalizing front with
  | nil => simpa [inTurn] using h
  | cons l ls ih =>
    have next := ih ((l.ends.behind [.text word]).behind front)
    simpa [inTurn] using next

/-- The statements of a block. -/
def block (ls : List Paragraph) : Paragraph :=
  flush '\x7b' [] (by decide) (by decide)
    (ls.flatMap ownLines ++ [.line 0, .text ⟨['\x7d'], by decide⟩])
    ((((EndVisibly.last (by decide) [] (by decide)).behind [_]).behind _).behind [_])

/-- A guarded statement with handlers, and what is done in every case. -/
def attempt (l : Paragraph) (handlers : List Paragraph) (last : Option Paragraph) : Paragraph :=
  flush 't' ['r', 'y', ' '] (by decide) (by decide)
    (l.pieces ++ inTurn ⟨[' '], by decide⟩ handlers ++
      inTurn ⟨[' ', 'f', 'i', 'n', 'a', 'l', 'l', 'y', ' '], by decide⟩ last.toList)
    ((inTurn_endVisibly (inTurn_endVisibly l.ends _ _) _ _).behind [_])

/-- A handler. -/
def clause (parameter : Fragment) (guard : Option Fragment) (l : Paragraph) : Paragraph :=
  flush 'c' ['a', 't', 'c', 'h', ' ', '('] (by decide) (by decide)
    (.text parameter ::
      (guard.toList.flatMap fun g => [.text ⟨[' ', 'i', 'f', ' '], by decide⟩, .text g]) ++
        .text ⟨[')', ' '], by decide⟩ :: l.pieces)
    (((l.ends.behind [_]).behind _).behind [_])

/-- A loop over an object. -/
def forIn (isForEach : Bool) (iterator object : Fragment) (inline : Bool) (l : Paragraph) :
    Paragraph :=
  flush 'f' ['o', 'r', ' '] (by decide) (by decide)
    ((if isForEach then [.text ⟨['e', 'a', 'c', 'h', ' '], by decide⟩] else []) ++
      .text ⟨['('], by decide⟩ :: .text iterator :: .text ⟨[' ', 'i', 'n', ' '], by decide⟩ ::
        .text object :: .text ⟨[')', ' '], by decide⟩ :: l.body inline)
    ((((l.body_endVisibly inline).behind [_, _, _, _, _]).behind _).behind [_])

/-- A loop that tests behind its body. -/
def doWhile (l : Paragraph) (test : Fragment) : Paragraph :=
  flush 'd' ['o', ' '] (by decide) (by decide)
    (l.pieces ++ [.text ⟨[' ', 'w', 'h', 'i', 'l', 'e', ' ', '('], by decide⟩, .text test,
      .text ⟨[')', ';'], by decide⟩])
    ((((EndVisibly.last (by decide) [')'] (by decide)).behind [_, _]).behind _).behind [_])

/-- A loop that tests before its body. -/
def whileDo (test : Fragment) (inline : Bool) (l : Paragraph) : Paragraph :=
  flush 'w' ['h', 'i', 'l', 'e', ' ', '('] (by decide) (by decide)
    (.text test :: .text ⟨[')', ' '], by decide⟩ :: l.body inline)
    ((l.body_endVisibly inline).behind [_, _, _])

end Paragraph

end SyntaxForest
