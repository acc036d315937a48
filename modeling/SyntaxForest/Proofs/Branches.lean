import SyntaxForest.Proofs.PrintedLines

/-!
# Branches in lines of their own

A branch of a condition that is no block stands in lines of its own.  It is printed at the depth of
the condition, and then the first of its lines is indented one level more, and no other
(`Forest.SetApart`).  So a branch in a single line is what is printed one level deeper, and of any
other branch all lines but the first are too far to the left (`Reached.branches_apart`,
`branch_not_deeper`).  The body of a loop is really printed one level deeper
(`Printer.exists_body_deeper`).

Whether a statement is a single line is told by the kinds in its tree: a block, a condition and a
loop that tests before its body start new lines, and nothing else does
(`Printer.InLines.isOneLine_iff`).  A branch is trimmed before it is set apart.  As long as no leaf
starts with a blank, this takes no more than the indentation (`Printer.LaidAs.lead_eq_nil`).
-/

namespace SyntaxForest

/-! ## One line -/

namespace Piece

/-- Whether a piece is a fragment of a line. -/
def isText : Piece → Bool
  | .text _ => true
  | .line _ => false

/-- A piece that starts a line is the start of one more line. -/
theorem length_lines (level : Nat) (before : Fragment) (pieces : List Piece) :
    (lines level before pieces).length = pieces.countP (!isText ·) + 1 := by
  induction pieces generalizing level before with
  | nil => rfl
  | cons piece pieces ih =>
    cases piece with
    | text fragment => rw [lines, ih, List.countP_cons_of_neg (by simp [isText])]
    | line level' =>
      rw [lines, List.length_cons, ih, List.countP_cons_of_pos (by rfl)]

end Piece

namespace Paragraph

open Piece

/-- Whether a statement is laid out in one line. -/
def isOneLine (l : Paragraph) : Bool := l.pieces.all isText

theorem isOneLine_iff (l : Paragraph) : l.isOneLine ↔ l.lines.length = 1 := by
  rw [lines, length_lines, Nat.add_eq_right, List.countP_eq_zero, isOneLine, List.all_eq_true]
  simp

section

variable (inline inline' : Bool) (l l' : Paragraph) (ls : List Paragraph)

@[simp] theorem isOneLine_flush {first : Char} {more : List Char}
    (unbroken : isUnbroken (first :: more)) (shows : isBlank first = false) {pieces : List Piece}
    (ends : EndVisibly (.text ⟨first :: more, unbroken⟩ :: pieces)) :
    (flush first more unbroken shows pieces ends).isOneLine = pieces.all isText := rfl

@[simp] theorem all_isText_pieces : l.pieces.all isText = l.isOneLine := rfl

@[simp] theorem all_isText_branch :
    (l.branch inline).all isText = (inline && l.isOneLine) := by
  cases inline <;> rfl

@[simp] theorem all_isText_body : (l.body inline).all isText = (inline && l.isOneLine) := by
  cases inline <;> rfl

@[simp] theorem all_isText_elseWord : (elseWord inline).all isText = inline := by
  cases inline <;> rfl

@[simp] theorem all_isText_inTurn (word : Fragment) :
    (inTurn word ls).all isText = ls.all isOneLine := by
  induction ls with
  | nil => rfl
  | cons l ls ih =>
    show ((.text word :: l.pieces) ++ inTurn word ls).all isText = _
    rw [List.all_append, ih]
    rfl

@[simp] theorem isOneLine_block : (block ls).isOneLine = false := by
  simp [block, isText]

@[simp] theorem isOneLine_conditional (test : Fragment) :
    (conditional test inline l).isOneLine = (inline && l.isOneLine) := by
  simp [conditional, isText]

@[simp] theorem isOneLine_alternative (test : Fragment) :
    (alternative test inline l inline' l').isOneLine =
      (inline && l.isOneLine && (inline' && l'.isOneLine)) := by
  cases inline <;> simp [alternative, isText]

@[simp] theorem isOneLine_attempt (last : Option Paragraph) :
    (attempt l ls last).isOneLine = (l.isOneLine && ls.all isOneLine && last.all isOneLine) := by
  cases last <;> simp [attempt, Bool.and_assoc]

@[simp] theorem isOneLine_clause (parameter : Fragment) (guard : Option Fragment) :
    (clause parameter guard l).isOneLine = l.isOneLine := by
  cases guard <;> simp [clause, isText]

@[simp] theorem isOneLine_forIn (isForEach : Bool) (iterator object : Fragment) :
    (forIn isForEach iterator object inline l).isOneLine = (inline && l.isOneLine) := by
  cases isForEach <;> simp [forIn, isText]

@[simp] theorem isOneLine_doWhile (test : Fragment) :
    (doWhile l test).isOneLine = l.isOneLine := by
  simp [doWhile, isText]

@[simp] theorem isOneLine_whileDo (test : Fragment) :
    (whileDo test inline l).isOneLine = (inline && l.isOneLine) := by
  simp [whileDo, isText]

end

end Paragraph

/-- Kinds that are printed over several lines, whatever they hold. -/
def Kind.breaksLine : Kind → Bool
  | .block | .ifStatement | .forInLoop | .whileLoop => true
  | _ => false

/-- What is printed within a line breaks no line. -/
theorem Kind.breaksLine_eq_false_of_isInline {k : Kind} (h : k.isInline) :
    k.breaksLine = false := by
  cases k <;> first | rfl | cases h

namespace Forest

variable {f : Forest}

/-- No node of a tree is of a kind that is printed over several lines. -/
def OneLine (f : Forest) (x : Link) : Prop :=
  ∀ y ∈ f.preorder x, (f.kind? (some y)).all (!·.breaksLine)

instance (f : Forest) (x : Link) : Decidable (f.OneLine x) := List.decidableBAll _ _

/-- What is no node is in one line. -/
theorem oneLine_of_kind?_eq_none {x : Link} (hx : f.kind? x = none) : f.OneLine x := by
  have absent : f.contains x = false := by
    rw [contains, ← Option.isSome_map, ← kind?, hx]
    rfl
  rw [OneLine, preorder_of_not_contains absent]
  exact fun _ hy => absurd hy List.not_mem_nil

section

variable (hf : f.Linked) {x : Link}
include hf

/-- A tree is in one line if its root is and the trees of the children are. -/
theorem oneLine_iff {k : Kind} (hk : f.kind? x = some k) :
    f.OneLine x ↔ k.breaksLine = false ∧ ∀ y ∈ f.children x, f.OneLine (some y) := by
  cases x with
  | none => cases hk
  | some x =>
    rw [OneLine, hf.preorder_eq (contains_of_kind? hk), List.forall_mem_cons, hk]
    simp only [Option.all_some, Bool.not_eq_true', List.forall_mem_flatMap]
    rfl

theorem oneLine_iff_links {c : Contents} (hc : f.contents? x = some c) :
    f.OneLine x ↔ c.kind.breaksLine = false ∧ ∀ a ∈ c.links, f.OneLine a := by
  rw [oneLine_iff hf (kind?_of_contents? hc), children_of_contents? hc]
  refine and_congr_right fun _ => ⟨fun all a ha => ?_, fun all y hy => ?_⟩
  · cases a with
    | none => exact oneLine_of_kind?_eq_none rfl
    | some y => exact all y (Contents.mem_children.mpr ha)
  · exact all (some y) (Contents.mem_children.mp hy)

theorem oneLine_of_isBare {k : Kind} (hk : f.kind? x = some k) (bare : k.isBare) :
    f.OneLine x := by
  have empty : f.contents? x = none := by
    rw [← Option.not_isSome_iff_eq_none, hf.intact.isSome_contents?_eq, hk, Option.any_some, bare]
    exact Bool.false_ne_true
  rw [oneLine_iff hf hk, children, empty]
  refine ⟨?_, fun _ hy => absurd hy List.not_mem_nil⟩
  cases k <;> first | rfl | cases bare

end

namespace Neat

variable (hf : f.Linked) {x : Link} (neat : f.Neat x)
include hf neat

/-- What stands within a line holds nothing else. -/
theorem isInline_of_link {c : Contents} (hc : f.contents? x = some c) (inline : c.kind.isInline)
    {a : Link} (ha : a ∈ c.links) {k : Kind} (hk : f.kind? a = some k) : k.isInline := by
  have sorted := (neat.own hf hc).2.1
  cases c with
  | arrayLiteral c =>
    have fits := List.all_eq_true.mp (Bool.and_eq_true_iff.mp sorted).2 a ha
    rwa [hk] at fits
  | objectLiteral c =>
    have demanded := hf.kind?_of_entry hc .elements rfl ha rfl
    cases hk.symm.trans demanded
    rfl
  | objectProperty c =>
    have sorts {slot : ChildSlot} (h : (Contents.objectProperty c).child? slot = some a) :
        slot.sorts k := neat.sorts_of_child? hf hc h hk
    rcases List.mem_pair.mp ha with rfl | rfl
    · exact @sorts .left rfl
    · exact @sorts .right rfl
  | name | numberLiteral | stringLiteral | keywordLiteral => cases ha
  | block | expressionStatement | ifStatement | tryStatement | catchClause | forInLoop | doLoop
  | whileLoop => cases inline

/-- **What stands within a line is in one line.** -/
theorem oneLine_of_isInline {k : Kind} (hk : f.kind? x = some k) (inline : k.isInline) :
    f.OneLine x := by
  induction x using hf.links_induction generalizing k with
  | step x ih =>
    by_cases bare : k.isBare
    · exact oneLine_of_isBare hf hk bare
    · obtain ⟨c, hc, rfl⟩ := hf.intact.exists_contents? hk (by simpa using bare)
      refine (oneLine_iff_links hf hc).mpr ⟨Kind.breaksLine_eq_false_of_isInline inline,
        fun a ha => ?_⟩
      cases ha' : f.kind? a with
      | none => exact oneLine_of_kind?_eq_none ha'
      | some k' =>
        have inline' := neat.isInline_of_link hf hc inline ha ha'
        exact ih c hc a ha (neat.of_link hf hc ha) ha' inline'

end Neat

end Forest

namespace Printer

variable {f : Forest} (hf : f.Linked) {x : Link}
include hf

/-! ## What is printed is told by the layout -/

/-- There is one fragment as which a node is printed within a line. -/
theorem InLine.unique {a b : Fragment} (h : InLine f x a) (h' : InLine f x b) : a = b := by
  obtain ⟨texts, htexts⟩ := exists_texts hf {}
  have same := Except.ok.inj ((h {} texts htexts 0).symm.trans (h' {} texts htexts 0))
  exact Fragment.ext (by simpa using congrArg String.toList same)

/-- There is one list of lines as which a node is laid out. -/
theorem InLines.lines_eq {l l' : Paragraph} (h : InLines f x l) (h' : InLines f x l') :
    l.lines = l'.lines := by
  refine Line.eq_of_text_eq fun o ho => ?_
  obtain ⟨texts, htexts⟩ := exists_texts hf o
  have same := Except.ok.inj ((h o ho texts htexts 0).symm.trans (h' o ho texts htexts 0))
  rw [l.text_lines, l'.text_lines]
  simpa using congrArg String.toList same

/-- Nothing is printed both within a line and in lines. -/
theorem InLine.not_inLines {content : Fragment} (h : InLine f x content) {l : Paragraph} :
    ¬ InLines f x l := by
  intro h'
  obtain ⟨texts, htexts⟩ := exists_texts hf {}
  have same := Except.ok.inj ((h {} texts htexts 0).symm.trans (h' {} (by decide) texts htexts 0))
  have chars : content.chars = l.printed {} 0 := by simpa using congrArg String.toList same
  have feed : '\n' ∈ l.printed {} 0 := by
    simp [Paragraph.printed, PrinterOptions.newlineText, Newline.text]
  exact content.newline_notMem (chars ▸ feed)

omit hf in
/-- What holds of related things holds of all on one side if it does on the other. -/
theorem forall_mem_congr_of_forall₂ {α β : Type} {R : α → β → Prop} {p : α → Prop} {q : β → Prop}
    {as : List α} {bs : List β} (h : List.Forall₂ R as bs)
    (same : ∀ a ∈ as, ∀ b, R a b → (q b ↔ p a)) : (∀ b ∈ bs, q b) ↔ ∀ a ∈ as, p a := by
  induction h with
  | nil => simp
  | cons first _ ih =>
    obtain ⟨head, tail⟩ := List.forall_mem_cons.mp same
    rw [List.forall_mem_cons, List.forall_mem_cons, head _ first, ih tail]

theorem InLine.isSome {content : Fragment} (h : InLine f x content) : x.isSome := by
  obtain ⟨texts, htexts⟩ := exists_texts hf {}
  exact (h {} texts htexts 0).isSome

theorem InLines.isSome {l : Paragraph} (h : InLines f x l) : x.isSome := by
  obtain ⟨texts, htexts⟩ := exists_texts hf {}
  exact (h {} (by decide) texts htexts 0).isSome

section

variable (neat : f.Neat x) {k : Kind} (hk : f.kind? x = some k)
include neat hk

/-- What is printed within a line is of a kind that is. -/
theorem InLine.isInline {content : Fragment} (h : InLine f x content) : k.isInline := by
  cases spread : k.isInline with
  | true => rfl
  | false =>
    obtain ⟨_, laid⟩ := (laidOut hf x neat).laidAs k hk spread
    exact absurd (laid.inLines hf) (h.not_inLines hf)

/-- What is printed in lines is of a kind that is. -/
theorem InLines.isInline_eq_false {l : Paragraph} (h : InLines f x l) : k.isInline = false := by
  cases inline : k.isInline with
  | false => rfl
  | true =>
    obtain ⟨_, set⟩ := (laidOut hf x neat).setAs k hk inline
    exact absurd h ((set.inLine hf).not_inLines hf)

/-- **What is laid out in one line is a tree without kinds that break lines.** -/
theorem InLines.isOneLine_iff {l : Paragraph} (h : InLines f x l) :
    l.isOneLine ↔ f.OneLine x := by
  induction x using hf.links_induction generalizing k l with
  | step x ih =>
    obtain ⟨l', laid⟩ := (laidOut hf x neat).laidAs k hk (h.isInline_eq_false hf neat hk)
    rw [l.isOneLine_iff, h.lines_eq hf (laid.inLines hf), ← l'.isOneLine_iff]
    -- what is known of the children, be they in the line or in lines of their own
    have within {c : Contents} (hc : f.contents? x = some c) {a : Link} (ha : a ∈ c.links)
        {content : Fragment} (inLine : InLine f a content) : f.OneLine a := by
      obtain ⟨k', hk'⟩ := exists_kind?_of_link hf hc ha (inLine.isSome hf)
      have neat' := neat.of_link hf hc ha
      exact neat'.oneLine_of_isInline hf hk' (inLine.isInline hf neat' hk')
    have below {c : Contents} (hc : f.contents? x = some c) {a : Link} (ha : a ∈ c.links)
        {l : Paragraph} (inLines : InLines f a l) : l.isOneLine ↔ f.OneLine a := by
      obtain ⟨k', hk'⟩ := exists_kind?_of_link hf hc ha (inLines.isSome hf)
      exact ih c hc a ha (neat.of_link hf hc ha) hk' inLines
    -- a block in the same line breaks the line
    have never {c : Contents} (hc : f.contents? x = some c) {a : Link} (ha : a ∈ c.links)
        {l : Paragraph} (inLines : InLines f a l) : ¬ (isBlock f a && l.isOneLine) := by
      rw [Bool.and_eq_true, below hc ha inLines]
      rintro ⟨block, oneLine⟩
      have breaks := ((Forest.oneLine_iff hf (beq_iff_eq.mp block)).mp oneLine).1
      cases breaks
    have breaking {c : Contents} (hc : f.contents? x = some c) (breaks : c.kind.breaksLine) :
        ¬ f.OneLine x := fun oneLine => by
      rw [Forest.oneLine_iff_links hf hc, breaks] at oneLine
      cases oneLine.1
    cases laid with
    | empty hx => exact iff_of_true rfl (Forest.oneLine_of_isBare hf hx rfl)
    | expression hc he =>
      refine iff_of_true rfl ((Forest.oneLine_iff_links hf hc).mpr ⟨rfl, fun a ha => ?_⟩)
      cases List.mem_singleton.mp ha
      exact within hc ha he
    | block hc h =>
      rw [Paragraph.isOneLine_block]
      exact iff_of_false nofun (breaking hc rfl)
    | conditional hc htest hthen helse =>
      rw [Paragraph.isOneLine_conditional]
      exact iff_of_false (never hc (by simp [Contents.links]) hthen) (breaking hc rfl)
    | alternative hc htest hthen helse =>
      rw [Paragraph.isOneLine_alternative, Bool.and_eq_true]
      exact iff_of_false (fun both => never hc (by simp [Contents.links]) hthen both.1)
        (breaking hc rfl)
    | @attempt c hc l htry ls hcatch last hlast =>
      have first := below hc (by simp [Contents.links]) htry
      have handlers : ls.all Paragraph.isOneLine ↔ ∀ a ∈ c.catchClauses, f.OneLine a := by
        rw [List.all_eq_true]
        exact forall_mem_congr_of_forall₂ hcatch fun a ha l hl =>
          below hc (by simp [Contents.links, ha]) hl
      have final : last.all Paragraph.isOneLine ↔ f.OneLine c.finallyBlock := by
        rcases hlast with ⟨absent, rfl⟩ | ⟨l', rfl, hfinally⟩
        · exact iff_of_true rfl (Forest.oneLine_of_kind?_eq_none (by rw [absent]; rfl))
        · exact below hc (by simp [Contents.links]) hfinally
      rw [Paragraph.isOneLine_attempt, Bool.and_eq_true, Bool.and_eq_true, first, handlers, final,
        Forest.oneLine_iff_links hf hc]
      simp [Contents.links, Kind.breaksLine, Contents.kind, or_imp, forall_and, and_assoc]
    | @clause c hc parameter hparameter guard hguard l hbody =>
      have parameter := within hc (by simp [Contents.links]) hparameter
      have guard : f.OneLine c.guard := by
        rcases hguard with ⟨absent, -⟩ | ⟨g, -, hguard⟩
        · exact Forest.oneLine_of_kind?_eq_none (by rw [absent]; rfl)
        · exact within hc (by simp [Contents.links]) hguard
      rw [Paragraph.isOneLine_clause, below hc (by simp [Contents.links]) hbody,
        Forest.oneLine_iff_links hf hc]
      simp [Contents.links, parameter, guard, Kind.breaksLine, Contents.kind]
    | forIn hc hiterator hobject hbody =>
      rw [Paragraph.isOneLine_forIn]
      exact iff_of_false (never hc (by simp [Contents.links]) hbody) (breaking hc rfl)
    | doWhile hc hbody htest =>
      rw [Paragraph.isOneLine_doWhile, below hc (by simp [Contents.links]) hbody,
        Forest.oneLine_iff_links hf hc]
      have test := within hc (by simp [Contents.links]) htest
      simp [Contents.links, test, Kind.breaksLine, Contents.kind]
    | whileDo hc htest hbody =>
      rw [Paragraph.isOneLine_whileDo]
      exact iff_of_false (never hc (by simp [Contents.links]) hbody) (breaking hc rfl)

end

end Printer

/-! ## Blanks in front -/

/-- Whether characters do not start with a blank. -/
def Fragment.startsVisibly (a : Fragment) : Bool := a.chars.head?.all (!isBlank ·)

/-- Whether a leaf is not printed with a blank in front. -/
def Contents.startsVisibly : Contents → Bool
  | .name c => c.identifier.toList.head?.all (!isBlank ·)
  | .numberLiteral c => c.token.all fun token => token.toList.head?.all (!isBlank ·)
  | .stringLiteral c => !isBlank c.quote
  | _ => true

/-- No leaf of a tree is printed with a blank in front. -/
def Forest.StartsVisibly (f : Forest) (x : Link) : Prop :=
  ∀ y ∈ f.preorder x, (f.contents? (some y)).all Contents.startsVisibly

instance (f : Forest) (x : Link) : Decidable (f.StartsVisibly x) := List.decidableBAll _ _

namespace Forest.StartsVisibly

variable {f : Forest} (hf : f.Linked) {x : Link} (visible : f.StartsVisibly x) {c : Contents}
  (hc : f.contents? x = some c)
include hf visible hc

theorem of_link {a : Link} (ha : a ∈ c.links) : f.StartsVisibly a :=
  fun y hy => visible y (hf.preorder_subset hc ha hy)

theorem own : c.startsVisibly := by
  cases x with
  | none => cases hc
  | some x =>
    have all := visible x (hf.mem_preorder_self (contains_of_contents? hc))
    rwa [hc] at all

end Forest.StartsVisibly

namespace Printer

variable {f : Forest} (hf : f.Linked) {x : Link} (neat : f.Neat x) {k : Kind}
  (hk : f.kind? x = some k) (visible : f.StartsVisibly x)
include hf neat hk visible

/-- What is printed within a line has no blank in front if no leaf has. -/
theorem InLine.startsVisibly {content : Fragment} (h : InLine f x content) :
    content.startsVisibly := by
  induction x using hf.links_induction generalizing k content with
  | step x ih =>
    obtain ⟨content', set⟩ := (laidOut hf x neat).setAs k hk (h.isInline hf neat hk)
    obtain rfl := h.unique hf (set.inLine hf)
    cases set with
    | name hc => exact visible.own hf hc
    | number hc value =>
      have own := visible.own hf hc
      rwa [Contents.startsVisibly, value] at own
    | string hc =>
      have own := visible.own hf hc
      simpa [Fragment.startsVisibly, Contents.startsVisibly, quoted] using own
    | @keyword c hc =>
      show (c.keyword.text.toList.head?.all (!isBlank ·)) = true
      cases c.keyword <;> decide
    | elision | array | object => rfl
    | @property c hc key value hkey hvalue =>
      have listed : c.left ∈ (Contents.objectProperty c).links := List.mem_cons_self
      obtain ⟨k', hk'⟩ := exists_kind?_of_link hf hc listed (hkey.isSome hf)
      have first := ih _ hc _ listed (neat.of_link hf hc listed) hk'
        (visible.of_link hf hc listed) hkey
      show ((key.chars ++ [':', ' '] ++ value.chars).head?.all (!isBlank ·)) = true
      rw [Fragment.startsVisibly] at first
      cases hchars : key.chars with
      | nil => rfl
      | cons c cs =>
        rw [hchars] at first
        exact first

omit hk in
/-- A statement has no blanks in front if no leaf has. -/
theorem LaidAs.lead_eq_nil {l : Paragraph} (h : LaidAs f x l) : l.lead.chars = [] := by
  cases h with
  | @expression c hc e he =>
    have listed : c.expression ∈ (Contents.expressionStatement c).links := List.mem_cons_self
    obtain ⟨k', hk'⟩ := exists_kind?_of_link hf hc listed (he.isSome hf)
    have first := he.startsVisibly hf (neat.of_link hf hc listed) hk'
      (visible.of_link hf hc listed)
    show e.chars.takeWhile isBlank = []
    rw [Fragment.startsVisibly] at first
    cases hchars : e.chars with
    | nil => rfl
    | cons c cs =>
      rw [hchars, List.head?_cons, Option.all_some, Bool.not_eq_true'] at first
      rw [List.takeWhile_cons_of_neg (by rw [first]; exact Bool.false_ne_true)]
  | empty | block | conditional | alternative | attempt | clause | forIn | doWhile | whileDo => rfl

end Printer

/-! ## Lines of its own -/

/-- What stands where a branch is put into lines of its own.  Its first line is one level deeper,
and its other lines are not. -/
structure Forest.SetApart (f : Forest) (o : PrinterOptions) (branch : Link) (depth : Nat)
    (there : String) : Prop where
  lines : ∃ first rest,
    (∀ depth, f.print o branch depth = .ok (String.ofList (Line.text o depth (first :: rest)))) ∧
    there = String.ofList (Line.text o (depth + 1) [first] ++ Line.text o depth rest) ∧
    (rest = [] ↔ f.OneLine branch)
  deeper : f.print o branch (depth + 1) = .ok there ↔ o.indentUnit = "" ∨ f.OneLine branch

namespace Paragraph

variable (l : Paragraph)

theorem exists_lines : ∃ first rest, l.lines = first :: rest ∧ (rest = [] ↔ l.isOneLine) := by
  obtain ⟨first, rest, hlines⟩ := List.exists_cons_of_length_eq_add_one
    (Piece.length_lines 0 l.lead l.pieces)
  have hlines : l.lines = first :: rest := hlines
  refine ⟨first, rest, hlines, ?_⟩
  rw [isOneLine_iff, hlines, List.length_cons, Nat.add_eq_right, List.length_eq_zero_iff]

/-- What is printed for a statement, with one more unit in front. -/
def apart (o : PrinterOptions) (depth : Nat) : String :=
  String.ofList (o.indentUnit.toList ++ l.printed o depth)

section

variable (o : PrinterOptions) (depth : Nat) (test : Fragment) (inline : Bool)
  {branch : Paragraph} (flush : branch.lead.chars = [])

include flush in
theorem toList_apart : (branch.apart o depth).toList = o.indentUnit.toList ++
    ((o.indent depth).toList ++ (Piece.spell o depth branch.pieces ++ o.newlineText.toList)) := by
  rw [apart, String.toList_ofList, printed, flush, List.nil_append]

include flush in
theorem text_conditional : String.ofList ((conditional test false branch).printed o depth) =
    o.indent depth ++ "if (" ++ String.ofList test.chars ++ ") " ++ o.newlineText ++
      branch.apart o depth := by
  refine String.toList_inj.mp ?_
  simp [conditional, toList_apart o depth flush, o.indent_succ]

include flush in
/-- The branch of a condition in front of `else`. -/
theorem exists_text_alternative_then : ∃ more,
    String.ofList ((alternative test false branch inline l).printed o depth) =
      o.indent depth ++ "if (" ++ String.ofList test.chars ++ ") " ++ o.newlineText ++
        branch.apart o depth ++ (o.indent depth ++ "else " ++ more) := by
  refine ⟨String.ofList (Piece.spell o depth (l.branch inline) ++ o.newlineText.toList),
    String.toList_inj.mp ?_⟩
  simp [alternative, elseWord, toList_apart o depth flush, o.indent_succ]

include flush in
/-- The branch of a condition behind `else`. -/
theorem exists_text_alternative_else : ∃ front,
    String.ofList ((alternative test inline l false branch).printed o depth) =
      o.indent depth ++ "if (" ++ String.ofList test.chars ++ ") " ++ front ++ "else " ++
        o.newlineText ++ branch.apart o depth := by
  refine ⟨String.ofList (Piece.spell o depth (l.branch inline) ++
    if inline then [' '] else o.newlineText.toList ++ (o.indent depth).toList),
    String.toList_inj.mp ?_⟩
  cases inline <;> simp [alternative, elseWord, toList_apart o depth flush, o.indent_succ]

theorem exists_text_forIn (isForEach : Bool) (iterator object : Fragment) : ∃ header,
    String.ofList ((forIn isForEach iterator object false l).printed o depth) =
      o.indent depth ++ header ++ o.newlineText ++ String.ofList (l.printed o (depth + 1)) := by
  refine ⟨"for " ++ (if isForEach then "each " else "") ++ "(" ++ String.ofList iterator.chars ++
    " in " ++ String.ofList object.chars ++ ") ", String.toList_inj.mp ?_⟩
  cases isForEach <;> simp [forIn]

theorem exists_text_whileDo : ∃ header,
    String.ofList ((whileDo test false l).printed o depth) =
      o.indent depth ++ header ++ o.newlineText ++ String.ofList (l.printed o (depth + 1)) := by
  refine ⟨"while (" ++ String.ofList test.chars ++ ") ", String.toList_inj.mp ?_⟩
  simp [whileDo]

end

end Paragraph

namespace Printer

variable {f : Forest} (hf : f.Linked) {x : Link} (neat : f.Neat x) {o : PrinterOptions}
  (ho : o.IsPlain)
include hf neat ho

/-- **A statement that is printed with one more unit in front is set apart.** -/
theorem InLines.setApart {k : Kind} (hk : f.kind? x = some k) {l : Paragraph} (h : InLines f x l)
    (height : f.height x ≤ Forest.maxHeight) (depth : Nat) :
    f.SetApart o x depth (l.apart o depth) := by
  obtain ⟨first, rest, hlines, single⟩ := l.exists_lines
  have printed (depth : Nat) :
      f.print o x depth = .ok (String.ofList (Line.text o depth (first :: rest))) := by
    rw [← hlines, l.text_lines]
    exact h.print_eq hf height ho depth
  have oneLine : rest = [] ↔ f.OneLine x := single.trans (h.isOneLine_iff hf neat hk)
  rw [Paragraph.apart, ← l.text_lines, hlines, Line.text_cons_deeper]
  refine ⟨⟨first, rest, printed, rfl, oneLine⟩, ?_⟩
  -- the first lines are the same, so all depends on whether the depth of the others shows
  have cut (depth' : Nat) : Line.text o depth' (first :: rest) =
      Line.text o depth' [first] ++ Line.text o depth' rest := by
    rw [← List.singleton_append, Line.text, List.flatMap_append]
    rfl
  rw [printed, Except.ok.injEq, String.ofList_inj, cut, List.append_cancel_left_eq,
    Line.text_succ_eq_iff, oneLine]

variable (visible : f.StartsVisibly x) (height : f.height x ≤ Forest.maxHeight)
include visible height

/-- A statement in a slot is printed without blanks in front, and can be set apart. -/
theorem exists_setApart_of_child? {c : Contents} (hc : f.contents? x = some c) (slot : ChildSlot)
    {a : Link} (ha : c.child? slot = some a) (statement : slot.holdsStatement)
    (present : a.isSome) : ∃ l : Paragraph, l.lead.chars = [] ∧ InLines f a l ∧
      ∀ depth, f.SetApart o a depth (l.apart o depth) := by
  have listed := Contents.mem_links_of_child? ha
  have neat' := neat.of_link hf hc listed
  obtain ⟨k, hk, sorts, laidOut⟩ := exists_kind?_of_child? hf neat hc
    (fun a ha => laidOut hf a (neat.of_link hf hc ha)) slot ha present
  rw [ChildSlot.sorts, if_pos statement] at sorts
  obtain ⟨l, laid⟩ := laidOut.laidAs k hk (isInline_eq_false_of_isStatement sorts)
  have inLines := laid.inLines hf
  have low := Nat.le_trans (hf.height_le_of_link hc listed) height
  exact ⟨l, laid.lead_eq_nil hf neat' (visible.of_link hf hc listed), inLines,
    inLines.setApart hf neat' ho hk low⟩

omit visible in
/-- A body that is no block, of a loop that tests before it, is printed one level deeper. -/
theorem exists_body_deeper {c : Contents} (hc : f.contents? x = some c)
    (loop : c.kind = .forInLoop ∨ c.kind = .whileLoop) {body : Link}
    (hbody : c.child? .body = some body) (spread : isBlock f body = false) (depth : Nat) :
    ∃ header there, f.print o body (depth + 1) = .ok there ∧
      f.print o x depth = .ok (o.indent depth ++ header ++ o.newlineText ++ there) := by
  have below := fun a ha => laidOut hf a (neat.of_link hf hc ha)
  have inLine (slot : ChildSlot) {a : Link} (ha : c.child? slot = some a) :=
    exists_inLine_of_child? hf neat hc below slot ha
  have filled := c.complete_iff.mp (neat.own hf hc).1
  have low := Nat.le_trans (hf.height_le_of_link hc (Contents.mem_links_of_child? hbody)) height
  have inLines (present : body.isSome) :=
    exists_inLines_of_child? hf neat hc below .body hbody rfl present
  cases c with
  | forInLoop c =>
    obtain rfl : c.loop.body = body := Option.some.inj hbody
    obtain ⟨l, hl⟩ := inLines filled.1
    obtain ⟨iterator, hiterator⟩ := inLine .iterator rfl rfl filled.2.1
    obtain ⟨object, hobject⟩ := inLine .iteratedObject rfl rfl filled.2.2
    have whole := (LaidAs.forIn hc hiterator hobject hl).inLines hf
    rw [spread] at whole
    obtain ⟨header, text⟩ := l.exists_text_forIn o depth c.isForEach iterator object
    exact ⟨header, _, hl.print_eq hf low ho (depth + 1),
      (whole.print_eq hf height ho depth).trans (congrArg _ text)⟩
  | whileLoop c =>
    obtain rfl : c.loop.body = body := Option.some.inj hbody
    obtain ⟨l, hl⟩ := inLines filled.2
    obtain ⟨test, htest⟩ := inLine .condition rfl rfl filled.1
    have whole := (LaidAs.whileDo hc htest hl).inLines hf
    rw [spread] at whole
    obtain ⟨header, text⟩ := l.exists_text_whileDo o depth test
    exact ⟨header, _, hl.print_eq hf low ho (depth + 1),
      (whole.print_eq hf height ho depth).trans (congrArg _ text)⟩
  | _ => rcases loop with kind | kind <;> cases kind

end Printer

/-! ## Conditions and loops -/

variable {f : Forest} {loose : List NodeIndex} {x : NodeIndex}

/-- **The branches of a condition, and the bodies of loops.**  A branch that is no block, nor a
condition behind `else`, stands in lines of its own, of which only the first is indented for that.
So it is what is printed one level deeper if it is a single line, and only then.  A body that is no
block is what is printed one level deeper. -/
theorem Reached.branches_apart (h : Reached f loose)
    (height : f.height (some x) ≤ Forest.maxHeight) (neat : f.Neat (some x))
    (visible : f.StartsVisibly (some x)) {o : PrinterOptions} (ho : o.IsPlain) (depth : Nat) :
    (∀ c : Contents.IfStatement, f.contents? (some x) = some (.ifStatement c) →
      ∃ test, f.print o c.condition 0 = .ok test ∧
        (Printer.isBlock f c.thenPart = false → ∃ there behind,
          f.SetApart o c.thenPart depth there ∧
          f.print o (some x) depth = .ok (o.indent depth ++ "if (" ++ test ++ ") " ++
            o.newlineText ++ there ++ behind) ∧
          if c.elsePart.isSome then ∃ more, behind = o.indent depth ++ "else " ++ more
          else behind = "") ∧
        (c.elsePart.isSome → Printer.isBlock f c.elsePart = false →
          f.kind? c.elsePart ≠ some .ifStatement → ∃ front there,
            f.SetApart o c.elsePart depth there ∧
            f.print o (some x) depth = .ok (o.indent depth ++ "if (" ++ test ++ ") " ++ front ++
              "else " ++ o.newlineText ++ there))) ∧
    ∀ (c : Contents) (body : Link), f.contents? (some x) = some c →
      c.kind = .forInLoop ∨ c.kind = .whileLoop → c.child? .body = some body →
      Printer.isBlock f body = false → ∃ header there,
        f.print o body (depth + 1) = .ok there ∧
        f.print o (some x) depth = .ok (o.indent depth ++ header ++ o.newlineText ++ there) := by
  have hf := h.tended.linked
  constructor
  · intro c hc
    obtain ⟨present, present'⟩ := (Contents.complete_iff _).mp (neat.own hf hc).1
    have below := fun a ha => Printer.laidOut hf a (neat.of_link hf hc ha)
    obtain ⟨test, htest⟩ :=
      Printer.exists_inLine_of_child? hf neat hc below .condition rfl rfl present
    obtain ⟨l, flush, hthen, apart⟩ :=
      Printer.exists_setApart_of_child? hf neat ho visible height hc .thenPart rfl rfl present'
    have listed : c.condition ∈ (Contents.ifStatement c).links := List.mem_cons_self
    have testText := htest.print_eq hf (Nat.le_trans (hf.height_le_of_link hc listed) height) o 0
    rw [Printer.toList_indent_zero, List.nil_append] at testText
    refine ⟨_, testText, ?_, ?_⟩
    · intro spread
      cases absent : c.elsePart with
      | none =>
        have whole := (Printer.LaidAs.conditional hc htest hthen absent).inLines hf
        rw [spread] at whole
        refine ⟨_, "", apart depth, ?_, rfl⟩
        rw [whole.print_eq hf height ho, Paragraph.text_conditional o depth test flush,
          String.append_empty]
      | some y =>
        obtain ⟨l', -, helse, -⟩ := Printer.exists_setApart_of_child? hf neat ho visible height hc
          .elsePart rfl rfl (absent ▸ rfl)
        have whole := (Printer.LaidAs.alternative hc htest hthen helse).inLines hf
        rw [spread] at whole
        obtain ⟨more, text⟩ := l'.exists_text_alternative_then o depth test _ flush
        exact ⟨_, _, apart depth, (whole.print_eq hf height ho depth).trans (congrArg _ text),
          more, rfl⟩
    · intro present spread other
      obtain ⟨l', flush', helse, apart'⟩ := Printer.exists_setApart_of_child? hf neat ho visible
        height hc .elsePart rfl rfl present
      have whole := (Printer.LaidAs.alternative hc htest hthen helse).inLines hf
      rw [spread, beq_eq_false_iff_ne.mpr other] at whole
      obtain ⟨front, text⟩ := l.exists_text_alternative_else o depth test _ flush'
      exact ⟨front, _, apart' depth, (whole.print_eq hf height ho depth).trans (congrArg _ text)⟩
  · intro c body hc loop hbody spread
    exact Printer.exists_body_deeper hf neat ho height hc loop hbody spread depth

/-- A condition of which no branch is a block.  One branch is a loop whose body is a block, the
other is a single line. -/
def Command.unbraced : List (Nat × Command) :=
  [(1, .construct (.node .ifStatement 0 0)), (2, .construct (.name 0 "a")),
    (3, .construct (.node .whileLoop 0 0)), (4, .construct (.name 0 "b")),
    (5, .construct (.node .block 0 0)), (6, .construct (.node .emptyStatement 0 0)),
    (0, .edit (.setChild .condition (some 0) (some 1))),
    (0, .edit (.setChild .condition (some 2) (some 3))),
    (0, .edit (.setChild .body (some 2) (some 4))),
    (0, .edit (.setChild .thenPart (some 0) (some 2))),
    (0, .edit (.setChild .elsePart (some 0) (some 5)))]

/-- The same condition as the body of a loop. -/
def Command.looping : List (Nat × Command) :=
  Command.unbraced ++ [(7, .construct (.node .whileLoop 0 0)), (8, .construct (.name 0 "c")),
    (0, .edit (.setChild .condition (some 6) (some 7))),
    (0, .edit (.setChild .body (some 6) (some 0)))]

/-- The branch in a single line is what is printed one level deeper, and the branch that is a loop
is not.  The condition, over several lines itself, is as the body of a loop what is printed one
level deeper. -/
theorem branches_apart_unbraced :
    (∃ test front there,
      (Command.perform Command.unbraced).1.print {} (some 5) 1 = .ok there ∧
      (Command.perform Command.unbraced).1.print {} (some 0) 0 = .ok (PrinterOptions.indent {} 0 ++
        "if (" ++ test ++ ") " ++ front ++ "else " ++ PrinterOptions.newlineText {} ++ there)) ∧
    (∃ test there behind,
      (Command.perform Command.unbraced).1.print {} (some 2) 1 ≠ .ok there ∧
      (Command.perform Command.unbraced).1.print {} (some 0) 0 = .ok (PrinterOptions.indent {} 0 ++
        "if (" ++ test ++ ") " ++ PrinterOptions.newlineText {} ++ there ++ behind)) ∧
    ∃ header there,
      (Command.perform Command.looping).1.print {} (some 0) 1 = .ok there ∧
      (Command.perform Command.looping).1.print {} (some 6) 0 =
        .ok (PrinterOptions.indent {} 0 ++ header ++ PrinterOptions.newlineText {} ++ there) := by
  have plain : PrinterOptions.IsPlain {} := by decide
  have contents : (Command.perform Command.unbraced).1.contents? (some 0) =
      some (.ifStatement { condition := some 1, thenPart := some 2, elsePart := some 5 }) := by
    decide +kernel
  have branches := ((reached_perform Command.unbraced).branches_apart (by decide +kernel)
    (by decide +kernel) (by decide +kernel) plain 0).1 _ contents
  obtain ⟨test, -, thenPart, elsePart⟩ := branches
  refine ⟨?_, ?_, ?_⟩
  · obtain ⟨front, there, apart, text⟩ := elsePart rfl (by decide +kernel) (by decide +kernel)
    have oneLine : (Command.perform Command.unbraced).1.OneLine (some 5) := by decide +kernel
    exact ⟨test, front, there, apart.deeper.mpr (.inr oneLine), text⟩
  · obtain ⟨there, behind, apart, text, -⟩ := thenPart (by decide +kernel)
    have spread : ¬ (Command.perform Command.unbraced).1.OneLine (some 2) := by decide +kernel
    have unit : PrinterOptions.indentUnit {} ≠ "" := by decide
    exact ⟨test, there, behind, fun same => (apart.deeper.mp same).elim unit spread, text⟩
  · have loop : (Command.perform Command.looping).1.contents? (some 6) =
        some (.whileLoop { condition := some 7, loop.body := some 0 }) := by
      decide +kernel
    exact ((reached_perform Command.looping).branches_apart (by decide +kernel) (by decide +kernel)
      (by decide +kernel) plain 0).2 _ (some 0) loop (.inr rfl) rfl (by decide +kernel)

/-- How the other branch is laid out, and the condition around it. -/
theorem Command.inLines_unbraced :
    Printer.InLines (Command.perform Command.unbraced).1 (some 2)
      (.whileDo ⟨['b'], by decide⟩ true (.block [])) ∧
    Printer.InLines (Command.perform Command.unbraced).1 (some 0)
      (.alternative ⟨['a'], by decide⟩ false (.whileDo ⟨['b'], by decide⟩ true (.block []))
        false .empty) := by
  have hf := (reached_perform Command.unbraced).tended.linked
  have test : Printer.SetAs (Command.perform Command.unbraced).1 (some 1) ⟨['a'], by decide⟩ :=
    .name (c := ⟨"a"⟩) (by decide +kernel) (by decide)
  have test' : Printer.SetAs (Command.perform Command.unbraced).1 (some 3) ⟨['b'], by decide⟩ :=
    .name (c := ⟨"b"⟩) (by decide +kernel) (by decide)
  have body : Printer.LaidAs (Command.perform Command.unbraced).1 (some 4) (.block []) :=
    .block (c := { statements := [] }) (by decide +kernel) .nil
  have loop : Printer.LaidAs (Command.perform Command.unbraced).1 (some 2)
      (.whileDo ⟨['b'], by decide⟩ true (.block [])) := by
    have contents : (Command.perform Command.unbraced).1.contents? (some 2) =
        some (.whileLoop { condition := some 3, loop.body := some 4 }) := by
      decide +kernel
    exact .whileDo contents (test'.inLine hf) (body.inLines hf)
  have other : Printer.LaidAs (Command.perform Command.unbraced).1 (some 5) .empty :=
    .empty (by decide +kernel)
  have condition : Printer.LaidAs (Command.perform Command.unbraced).1 (some 0)
      (.alternative ⟨['a'], by decide⟩ false (.whileDo ⟨['b'], by decide⟩ true (.block []))
        false .empty) := by
    have contents : (Command.perform Command.unbraced).1.contents? (some 0) =
        some (.ifStatement { condition := some 1, thenPart := some 2, elsePart := some 5 }) := by
      decide +kernel
    exact .alternative contents (test.inLine hf) (loop.inLines hf) (other.inLines hf)
  exact ⟨loop.inLines hf, condition.inLines hf⟩

/-- **A branch of several lines is not what is printed one level deeper.**  The last line of the
branch should be indented, and it is not. -/
theorem branch_not_deeper : ∃ f loose x c, Reached f loose ∧
    f.contents? (some x) = some (.ifStatement c) ∧ f.height (some x) ≤ Forest.maxHeight ∧
    f.Neat (some x) ∧ f.StartsVisibly (some x) ∧ Printer.isBlock f c.thenPart = false ∧
    f.print {} c.thenPart 1 = .ok "    while (b) \x7b\n    \x7d\n" ∧
    f.toSource (some x) = .ok "if (a) \n    while (b) \x7b\n\x7d\nelse \n    ;\n" ∧
    ∀ front behind,
      f.toSource (some x) ≠ .ok (front ++ "    while (b) \x7b\n    \x7d" ++ behind) := by
  have reached := reached_perform Command.unbraced
  have hf := reached.tended.linked
  have plain : PrinterOptions.IsPlain {} := by decide
  obtain ⟨loop, condition⟩ := Command.inLines_unbraced
  have branch : (Command.perform Command.unbraced).1.print {} (some 2) 1 =
      .ok "    while (b) \x7b\n    \x7d\n" :=
    (loop.print_eq hf (by decide +kernel) plain 1).trans (by decide +kernel)
  have whole : (Command.perform Command.unbraced).1.toSource (some 0) =
      .ok "if (a) \n    while (b) \x7b\n\x7d\nelse \n    ;\n" :=
    (condition.print_eq hf (by decide +kernel) plain 0).trans (by decide +kernel)
  refine ⟨_, _, 0, { condition := some 1, thenPart := some 2, elsePart := some 5 }, reached,
    by decide +kernel, by decide +kernel, by decide +kernel, by decide +kernel, by decide +kernel,
    branch, whole, fun front behind same => ?_⟩
  have found : "    while (b) \x7b\n    \x7d".toList <:+:
      "if (a) \n    while (b) \x7b\n\x7d\nelse \n    ;\n".toList := by
    refine ⟨front.toList, behind.toList, ?_⟩
    rw [Except.ok.inj (whole.symm.trans same), String.toList_append, String.toList_append]
  exact absurd found (by decide +kernel)

end SyntaxForest
