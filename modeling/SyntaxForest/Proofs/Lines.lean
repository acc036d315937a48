import SyntaxForest.Proofs.Texts

/-!
# Lines

Source text as lines.  A line has a level of indentation, and what it contains has no line ends in
it (`Fragment`), not even where a string has some (`Quoted.isUnbroken_body`).  Depth, indentation
and line ends are filled in when the line is written.

As long as blanks and tabs indent, lines can be told from what is written (`Line.eq_of_text_eq`).
Two changes of the white space can then be made to a text that is already there: one level more for
all of its lines (`inFront`), and other line ends (`withReturns`).
-/

namespace SyntaxForest

/-- No line ends within the characters. -/
def isUnbroken (cs : List Char) : Bool := cs.all fun c => c != '\n' && c != '\r'

@[simp] theorem isUnbroken_nil : isUnbroken [] = true := rfl

@[simp] theorem isUnbroken_cons (c : Char) (cs : List Char) :
    isUnbroken (c :: cs) = (c != '\n' && c != '\r' && isUnbroken cs) := List.all_cons

@[simp] theorem isUnbroken_append (cs cs' : List Char) :
    isUnbroken (cs ++ cs') = (isUnbroken cs && isUnbroken cs') := List.all_append

theorem isUnbroken_of_sublist {cs cs' : List Char} (h : cs.Sublist cs')
    (unbroken : isUnbroken cs') : isUnbroken cs :=
  List.all_eq_true.mpr fun c hc => List.all_eq_true.mp unbroken c (h.subset hc)

/-- Characters that stand in one line. -/
@[ext]
structure Fragment where
  chars : List Char
  unbroken : isUnbroken chars
  deriving DecidableEq, Repr

namespace Fragment

instance : Append Fragment :=
  ⟨fun a b => ⟨a.chars ++ b.chars, by rw [isUnbroken_append, a.unbroken, b.unbroken]; rfl⟩⟩

@[simp] theorem chars_append (a b : Fragment) : (a ++ b).chars = a.chars ++ b.chars := rfl

theorem newline_notMem (a : Fragment) : '\n' ∉ a.chars := by
  intro mem
  cases List.all_eq_true.mp a.unbroken _ mem

end Fragment

namespace Quoted

theorem isUnbroken_hexDigit : ∀ n < 16, isUnbroken [hexDigit n] := by decide

theorem isUnbroken_hexFour (n : Nat) : isUnbroken (hexFour n) := by
  have digit (n : Nat) : isUnbroken [hexDigit (n % 16)] :=
    isUnbroken_hexDigit _ (Nat.mod_lt n (by decide))
  simpa [hexFour] using ⟨by simpa using digit _, by simpa using digit _, by simpa using digit _,
    by simpa using digit _⟩

/-- **No line ends within a quoted string**, whatever its value is. -/
theorem isUnbroken_body {quote : Char} (h : isUnbroken [quote]) (value : List Char) :
    isUnbroken (body quote value) := by
  have one (c : Char) : isUnbroken (escape quote c) := by
    unfold escape
    split
    case h_6 c newline return_ tab backslash nul =>
      split
      · next same => simpa [beq_iff_eq.mp same] using h
      · split
        · simpa using isUnbroken_hexFour _
        · simpa using ⟨newline, return_⟩
    all_goals rfl
  induction value with
  | nil => rfl
  | cons c value ih => rw [body, List.flatMap_cons, isUnbroken_append, one]; exact ih

end Quoted

/-! ## Written lines -/

/-- A level is indented by blanks and tabs. -/
def PrinterOptions.IsPlain (o : PrinterOptions) : Prop :=
  ∀ c ∈ o.indentUnit.toList, c = ' ' ∨ c = '\t'

instance (o : PrinterOptions) : Decidable o.IsPlain := List.decidableBAll _ _

/-- What stands in a line, and how far it is indented besides the depth of the whole text. -/
@[ext]
structure Line where
  level : Nat
  content : Fragment
  deriving DecidableEq, Repr

namespace Line

/-- The characters of a line, with its end. -/
def written (o : PrinterOptions) (depth : Nat) (line : Line) : List Char :=
  (o.indent (depth + line.level)).toList ++ (line.content.chars ++ o.newlineText.toList)

/-- The characters of lines, one after the other. -/
def text (o : PrinterOptions) (depth : Nat) (lines : List Line) : List Char :=
  lines.flatMap (written o depth)

end Line

/-- A text with some characters in front of each line, the first one included if it starts here. -/
def inFront (front : List Char) : Bool → List Char → List Char
  | _, [] => []
  | true, c :: cs => front ++ c :: inFront front (c == '\n') cs
  | false, c :: cs => c :: inFront front (c == '\n') cs

/-- A text with a carriage return in front of each line feed. -/
def withReturns (cs : List Char) : List Char :=
  cs.flatMap fun c => if c = '\n' then ['\r', '\n'] else [c]

theorem inFront_append (front : List Char) {cs : List Char} (h : '\n' ∉ cs) (rest : List Char) :
    inFront front true (cs ++ '\n' :: rest) =
      front ++ (cs ++ '\n' :: inFront front true rest) := by
  have within : ∀ {cs : List Char}, '\n' ∉ cs →
      inFront front false (cs ++ '\n' :: rest) = cs ++ '\n' :: inFront front true rest := by
    intro cs h
    induction cs with
    | nil => rfl
    | cons c cs ih =>
      obtain ⟨other, h⟩ := List.ne_and_not_mem_of_not_mem_cons h
      rw [List.cons_append, inFront, beq_eq_false_iff_ne.mpr (Ne.symm other), ih h]
      rfl
  cases cs with
  | nil => rfl
  | cons c cs =>
    obtain ⟨other, h⟩ := List.ne_and_not_mem_of_not_mem_cons h
    rw [List.cons_append, inFront, beq_eq_false_iff_ne.mpr (Ne.symm other), within h]
    rfl

theorem withReturns_append (cs cs' : List Char) :
    withReturns (cs ++ cs') = withReturns cs ++ withReturns cs' := List.flatMap_append ..

theorem withReturns_eq_self {cs : List Char} (h : '\n' ∉ cs) : withReturns cs = cs := by
  induction cs with
  | nil => rfl
  | cons c cs ih =>
    obtain ⟨other, h⟩ := List.ne_and_not_mem_of_not_mem_cons h
    rw [withReturns, List.flatMap_cons, if_neg (Ne.symm other)]
    exact congrArg (c :: ·) (ih h)

/-! ## Lines and their text -/

namespace PrinterOptions

theorem indent_succ (o : PrinterOptions) (depth : Nat) :
    (o.indent (depth + 1)).toList = o.indentUnit.toList ++ (o.indent depth).toList := by
  rw [Printer.toList_indent, Printer.toList_indent, List.replicate_succ, List.flatten_cons]

/-- Where blanks and tabs indent, no more than blanks and tabs indents a line. -/
theorem IsPlain.of_mem_indent {o : PrinterOptions} (h : o.IsPlain) (depth : Nat) :
    ∀ c ∈ (o.indent depth).toList, c = ' ' ∨ c = '\t' := by
  induction depth with
  | zero => rw [Printer.toList_indent]; exact fun c hc => nomatch hc
  | succ depth ih =>
    intro c hc
    rw [indent_succ] at hc
    exact (List.mem_append.mp hc).elim (h c) (ih c)

theorem IsPlain.newline_notMem {o : PrinterOptions} (h : o.IsPlain) (depth : Nat) :
    '\n' ∉ (o.indent depth).toList := by
  intro mem
  rcases h.of_mem_indent depth _ mem with same | same <;> cases same

end PrinterOptions

namespace Line

/-- **Lines that are indented one level more are the same lines with one unit in front of
each.** -/
theorem text_succ {o : PrinterOptions} (ho : o.IsPlain) (depth : Nat) (lines : List Line) :
    text o (depth + 1) lines = inFront o.indentUnit.toList true (text o depth lines) := by
  -- in both styles the line feed is the last character of a line
  obtain ⟨before, ending, start⟩ : ∃ before, o.newlineText.toList = before ++ ['\n'] ∧
      '\n' ∉ before := by
    unfold PrinterOptions.newlineText
    cases o.newline with
    | lineFeed => exact ⟨[], rfl, by decide⟩
    | carriageReturnLineFeed => exact ⟨['\r'], rfl, by decide⟩
  induction lines with
  | nil => rfl
  | cons line lines ih =>
    have whole :
        '\n' ∉ (o.indent (depth + line.level)).toList ++ (line.content.chars ++ before) := by
      simp only [List.mem_append, not_or]
      exact ⟨ho.newline_notMem _, line.content.newline_notMem, start⟩
    have feed := inFront_append o.indentUnit.toList whole (text o depth lines)
    rw [← ih] at feed
    simpa [text, written, ending, Nat.add_right_comm, PrinterOptions.indent_succ] using feed.symm

theorem written_succ (o : PrinterOptions) (depth : Nat) (line : Line) :
    written o (depth + 1) line = o.indentUnit.toList ++ written o depth line := by
  rw [written, written, Nat.add_right_comm, o.indent_succ, List.append_assoc]

/-- One level deeper there is one more unit in each line. -/
theorem length_text_succ (o : PrinterOptions) (depth : Nat) (lines : List Line) :
    (text o (depth + 1) lines).length =
      (text o depth lines).length + lines.length * o.indentUnit.toList.length := by
  induction lines with
  | nil => simp [text]
  | cons line lines ih =>
    rw [text, text, List.flatMap_cons, List.flatMap_cons, ← text, ← text, written_succ]
    simp only [List.length_append, List.length_cons, Nat.succ_mul, ih]
    omega

/-- Lines look the same one level deeper if nothing indents or there are none, and only then. -/
theorem text_succ_eq_iff (o : PrinterOptions) (depth : Nat) (lines : List Line) :
    text o (depth + 1) lines = text o depth lines ↔ o.indentUnit = "" ∨ lines = [] := by
  constructor
  · intro same
    have counted := length_text_succ o depth lines
    rw [same, Nat.left_eq_add, Nat.mul_eq_zero, List.length_eq_zero_iff, List.length_eq_zero_iff,
      String.toList_eq_nil_iff] at counted
    exact counted.symm
  · rintro (empty | rfl)
    · refine List.flatMap_congr fun line _ => ?_
      rw [written_succ, empty]
      rfl
    · rfl

/-- One more unit in front brings the first line one level deeper, and no other. -/
theorem text_cons_deeper (o : PrinterOptions) (depth : Nat) (first : Line) (rest : List Line) :
    o.indentUnit.toList ++ text o depth (first :: rest) =
      text o (depth + 1) [first] ++ text o depth rest := by
  simp [text, written_succ]

/-- **With carriage returns the same text is written, with a carriage return in front of each line
feed.** -/
theorem text_carriageReturn {o : PrinterOptions} (ho : o.IsPlain) (usual : o.newline = .lineFeed)
    (depth : Nat) (lines : List Line) :
    text { o with newline := .carriageReturnLineFeed } depth lines =
      withReturns (text o depth lines) := by
  have ending : o.newlineText.toList = ['\n'] := by rw [PrinterOptions.newlineText, usual]; rfl
  induction lines with
  | nil => rfl
  | cons line lines ih =>
    have returned : withReturns ['\n'] = Newline.carriageReturnLineFeed.text.toList := by decide
    have own : written { o with newline := .carriageReturnLineFeed } depth line =
        withReturns (written o depth line) := by
      rw [written, written, withReturns_append, withReturns_append, ending,
        withReturns_eq_self (ho.newline_notMem _),
        withReturns_eq_self line.content.newline_notMem, returned, Printer.toList_indent,
        Printer.toList_indent]
      rfl
    simp only [text, List.flatMap_cons, withReturns_append]
    exact congrArg₂ _ own ih

/-- The usual line end is a line feed. -/
theorem text_cons (o : PrinterOptions) (usual : o.newline = .lineFeed) (depth : Nat) (line : Line)
    (lines : List Line) : text o depth (line :: lines) =
      ((o.indent (depth + line.level)).toList ++ line.content.chars) ++
        '\n' :: text o depth lines := by
  simp [text, written, PrinterOptions.newlineText, usual, Newline.text]

/-- What stands in front of the first line feed is told by the text. -/
theorem eq_of_append_newline_eq {cs cs' rest rest' : List Char} (h : '\n' ∉ cs) (h' : '\n' ∉ cs')
    (same : cs ++ '\n' :: rest = cs' ++ '\n' :: rest') : cs = cs' ∧ rest = rest' := by
  induction cs generalizing cs' with
  | nil =>
    cases cs' with
    | nil => exact ⟨rfl, (List.cons.inj same).2⟩
    | cons c' cs' => exact absurd (List.cons.inj same).1 (List.ne_of_not_mem_cons h')
  | cons c cs ih =>
    obtain ⟨other, h⟩ := List.ne_and_not_mem_of_not_mem_cons h
    cases cs' with
    | nil => exact absurd (List.cons.inj same).1.symm other
    | cons c' cs' =>
      obtain ⟨rfl, more⟩ := List.cons.inj same
      obtain ⟨rfl, rfl⟩ := ih h (List.ne_and_not_mem_of_not_mem_cons h').2 more
      exact ⟨rfl, rfl⟩

/-- **Lines are told by their texts.**  The contents show where nothing indents, and the levels
where a blank does. -/
theorem eq_of_text_eq {lines lines' : List Line}
    (same : ∀ o : PrinterOptions, o.IsPlain → text o 0 lines = text o 0 lines') :
    lines = lines' := by
  have flush := same { indentUnit := "" } (by decide)
  have shifted := same { indentUnit := " " } (by decide)
  clear same
  induction lines generalizing lines' with
  | nil =>
    cases lines' with
    | nil => rfl
    | cons line' lines' =>
      rw [text_cons _ rfl] at flush
      simp [text] at flush
  | cons line lines ih =>
    cases lines' with
    | nil =>
      rw [text_cons _ rfl] at flush
      simp [text] at flush
    | cons line' lines' =>
      have apart (o : PrinterOptions) (plain : o.IsPlain) (line : Line) :
          '\n' ∉ (o.indent (0 + line.level)).toList ++ line.content.chars :=
        fun mem => (List.mem_append.mp mem).elim (plain.newline_notMem _)
          line.content.newline_notMem
      rw [text_cons _ rfl, text_cons _ rfl] at flush shifted
      obtain ⟨contents, flushRest⟩ :=
        eq_of_append_newline_eq (apart _ (by decide) line) (apart _ (by decide) line') flush
      obtain ⟨levels, shiftedRest⟩ :=
        eq_of_append_newline_eq (apart _ (by decide) line) (apart _ (by decide) line') shifted
      have content : line.content.chars = line'.content.chars := by
        simpa [Printer.toList_indent] using contents
      have level : line.level = line'.level := by
        rw [content, List.append_left_inj] at levels
        simpa [Printer.toList_indent] using congrArg List.length levels
      rw [Line.ext level (Fragment.ext content), ih flushRest shiftedRest]

end Line

end SyntaxForest
