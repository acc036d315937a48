import SyntaxForest.Proofs.Completeness
import SyntaxForest.Proofs.Likeness
import SyntaxForest.Proofs.NodeTexts
import SyntaxForest.Proofs.Paragraphs

/-!
# Statements are printed in lines

A statement that lacks nothing is printed as the same lines at every depth and with all indentation
and line ends (`Reached.print_in_lines`).  What stands within a line is printed as the same fragment
everywhere (`Printer.InLine`), and a statement is laid out as the same paragraph everywhere
(`Printer.InLines`).  That the lines are those of the tree, wherever it stands, is not special to
lines; trees that are the same have one text (`Forest.Same.print_eq`).

How a node is set within a line or laid out in lines follows from how its children are
(`Printer.SetAs`, `Printer.LaidAs`).  Both are found together by going down the tree, since a node
puts the text of a child where the kind of the child belongs only if statements and expressions are
where they should be (`Printer.laidOut`).  What is no statement and no handler counts as an
expression here: an elision or a property would be printed in any slot for expressions.
-/

namespace SyntaxForest

/-! ## What a tree has to keep to -/

/-- Kinds that are printed within a line. -/
def Kind.isInline (k : Kind) : Bool := !(k.isStatement || k == .catchClause)

/-- Whether a slot is for statements.  The other slots are for expressions. -/
def ChildSlot.holdsStatement : ChildSlot → Bool
  | .thenPart | .elsePart | .tryBlock | .finallyBlock | .handlerBody | .body => true
  | .left | .right | .expression | .condition | .varName | .guard | .iterator
  | .iteratedObject => false

/-- Whether a slot is for a kind. -/
def ChildSlot.sorts (slot : ChildSlot) (k : Kind) : Bool :=
  if slot.holdsStatement then k.isStatement else k.isInline

namespace Contents

/-- Whether statements stand where statements should, and expressions where expressions should. -/
def isSorted (kind? : Link → Option Kind) (c : Contents) : Bool :=
  (ChildSlot.all.all fun slot => (c.child? slot).all fun a => (kind? a).all slot.sorts) &&
  match c with
  | .arrayLiteral c => c.elements.all fun a => (kind? a).all Kind.isInline
  | .block c => c.statements.all fun a => (kind? a).all Kind.isStatement
  | _ => true

/-- Whether no line ends in an identifier, in the token of a number, or as a quote. -/
def isUnbroken : Contents → Bool
  | .name c => SyntaxForest.isUnbroken c.identifier.toList
  | .numberLiteral c => c.token.all fun token => SyntaxForest.isUnbroken token.toList
  | .stringLiteral c => SyntaxForest.isUnbroken [c.quote]
  | _ => true

end Contents

/-- A tree lacks nothing, its statements and expressions are where they should be, and no line ends
within a word. -/
structure Forest.Neat (f : Forest) (x : Link) : Prop where
  complete : ∀ y ∈ f.preorder x, f.Complete y
  sorted : ∀ y ∈ f.preorder x, (f.contents? (some y)).all (·.isSorted f.kind?)
  unbroken : ∀ y ∈ f.preorder x, (f.contents? (some y)).all Contents.isUnbroken

instance (f : Forest) (x : Link) : Decidable (f.Neat x) :=
  decidable_of_iff ((∀ y ∈ f.preorder x, f.Complete y) ∧
      (∀ y ∈ f.preorder x, (f.contents? (some y)).all (·.isSorted f.kind?)) ∧
      ∀ y ∈ f.preorder x, (f.contents? (some y)).all Contents.isUnbroken)
    ⟨fun h => ⟨h.1, h.2.1, h.2.2⟩, fun h => ⟨h.complete, h.sorted, h.unbroken⟩⟩

namespace Forest.Neat

variable {f : Forest} (hf : f.Linked) {x : Link} (h : f.Neat x) {c : Contents}
  (hc : f.contents? x = some c)
include hf h hc

theorem of_link {a : Link} (ha : a ∈ c.links) : f.Neat a where
  complete y hy := h.complete y (hf.preorder_subset hc ha hy)
  sorted y hy := h.sorted y (hf.preorder_subset hc ha hy)
  unbroken y hy := h.unbroken y (hf.preorder_subset hc ha hy)

theorem own : c.Complete ∧ c.isSorted f.kind? ∧ c.isUnbroken := by
  cases x with
  | none => cases hc
  | some x =>
    have self := hf.mem_preorder_self (contains_of_contents? hc)
    have sorted := h.sorted x self
    have unbroken := h.unbroken x self
    rw [hc] at sorted unbroken
    exact ⟨h.complete x self c hc, sorted, unbroken⟩

/-- What stands in a slot is what the slot is for. -/
theorem sorts_of_child? {slot : ChildSlot} {a : Link} (ha : c.child? slot = some a) {k : Kind}
    (hk : f.kind? a = some k) : slot.sorts k := by
  have all := List.all_eq_true.mp (Bool.and_eq_true_iff.mp (h.own hf hc).2.1).1 slot slot.mem_all
  rw [ha, Option.all_some, hk] at all
  exact all

end Forest.Neat

namespace Printer

variable {f : Forest}

/-! ## Within a line -/

/-- A link is printed as a fragment, however it is printed. -/
def InLine (f : Forest) (x : Link) (content : Fragment) : Prop :=
  ∀ o texts, (assembly f o).Recursive texts → ∀ depth,
    Prints texts x depth ((o.indent depth).toList ++ content.chars)

theorem exists_forall₂ {α β : Type} {R : α → β → Prop} {as : List α} (h : ∀ a ∈ as, ∃ b, R a b) :
    ∃ bs, List.Forall₂ R as bs := by
  induction as with
  | nil => exact ⟨[], .nil⟩
  | cons a as ih =>
    obtain ⟨first, rest⟩ := List.forall_mem_cons.mp h
    obtain ⟨b, hb⟩ := first
    obtain ⟨bs, hbs⟩ := ih rest
    exact ⟨b :: bs, .cons hb hbs⟩

theorem isUnbroken_intercalate {sep : List Char} (hsep : isUnbroken sep) {parts : List (List Char)}
    (h : ∀ part ∈ parts, isUnbroken part) : isUnbroken (sep.intercalate parts) := by
  induction parts with
  | nil => rfl
  | cons part parts ih =>
    obtain ⟨first, rest⟩ := List.forall_mem_cons.mp h
    cases parts with
    | nil => simpa [List.intercalate] using first
    | cons next parts =>
      have more := ih rest
      simp only [List.intercalate, List.intersperse_cons_cons, List.flatten_cons,
        isUnbroken_append, first, hsep, Bool.true_and] at more ⊢
      exact more

/-- Elements are printed as a fragment together, with commas between them. -/
def Joins (f : Forest) (xs : List Link) (inner : Fragment) : Prop :=
  ∀ o texts, (assembly f o).Recursive texts →
    ∃ parts, PrintsAll texts 0 xs parts ∧ (joined f xs parts).toList = inner.chars

/-- Elements that are printed within a line are printed within a line together. -/
theorem exists_joins {xs : List Link} (h : ∀ a ∈ xs, ∃ content, InLine f a content) :
    ∃ inner, Joins f xs inner := by
  obtain ⟨contents, printed⟩ := exists_forall₂ h
  have unbroken : isUnbroken
      (joined f xs (contents.map fun content => String.ofList content.chars)).toList := by
    have inner : isUnbroken ([',', ' '].intercalate (contents.map Fragment.chars)) :=
      isUnbroken_intercalate rfl (by simpa using fun content _ => content.unbroken)
    have comma : isUnbroken (if endsWithElision f xs then "," else "").toList := by
      split <;> rfl
    rw [joined, String.toList_append, String.toList_intercalate, isUnbroken_append, List.map_map,
      comma, Bool.and_true]
    simpa [Function.comp_def] using inner
  refine ⟨⟨_, unbroken⟩, fun o texts htexts => ⟨_, ?_, rfl⟩⟩
  refine List.forall₂_map_right_iff.mpr (printed.imp fun a content inLine => ?_)
  simpa [Prints] using inLine o texts htexts 0

/-- How a node is set within a line, given how its children are. -/
inductive SetAs (f : Forest) (x : Link) : Fragment → Prop where
  | name {c : Contents.Name} (hc : f.contents? x = some (.name c))
    (unbroken : isUnbroken c.identifier.toList) : SetAs f x ⟨c.identifier.toList, unbroken⟩
  | number {c : Contents.NumberLiteral} (hc : f.contents? x = some (.numberLiteral c))
    {token : String} (value : c.token = some token) (unbroken : isUnbroken token.toList) :
    SetAs f x ⟨token.toList, unbroken⟩
  | string {c : Contents.StringLiteral} (hc : f.contents? x = some (.stringLiteral c))
    (unbroken : isUnbroken (quoted c.quote c.value).toList) :
    SetAs f x ⟨(quoted c.quote c.value).toList, unbroken⟩
  | keyword {c : Contents.KeywordLiteral} (hc : f.contents? x = some (.keywordLiteral c))
    (unbroken : isUnbroken c.keyword.text.toList) : SetAs f x ⟨c.keyword.text.toList, unbroken⟩
  | elision (hx : f.kind? x = some .emptyExpression) : SetAs f x ⟨[], by decide⟩
  | array {c : Contents.ArrayLiteral} (hc : f.contents? x = some (.arrayLiteral c))
    {inner : Fragment} (elements : Joins f c.elements inner) :
    SetAs f x (⟨['['], by decide⟩ ++ inner ++ ⟨[']'], by decide⟩)
  | object {c : Contents.ObjectLiteral} (hc : f.contents? x = some (.objectLiteral c))
    {inner : Fragment} (properties : Joins f c.elements inner) :
    SetAs f x (⟨['\x7b'], by decide⟩ ++ inner ++ ⟨['\x7d'], by decide⟩)
  | property {c : Contents.ObjectProperty} (hc : f.contents? x = some (.objectProperty c))
    {key value : Fragment} (hkey : InLine f c.left key) (hvalue : InLine f c.right value) :
    SetAs f x (key ++ ⟨[':', ' '], by decide⟩ ++ value)

section

variable (hf : f.Linked) {x : Link}
include hf

omit hf in
/-- A leaf is printed as a word, indented like anything else. -/
theorem inLine_word {c : Contents} (hc : f.contents? x = some c) {word : String}
    (unbroken : isUnbroken word.toList)
    (h : ∀ o depth, ofContents f o c depth = pure (o.indent depth ++ word)) :
    InLine f x ⟨word.toList, unbroken⟩ := by
  intro _ _ htexts _
  refine prints_of_gives htexts hc (fun y _ => ?_) (String.toList_append ..)
  rw [h]
  exact .pure _

/-- As a node is set, so it is printed. -/
theorem SetAs.inLine {content : Fragment} (h : SetAs f x content) : InLine f x content := by
  cases h with
  | name hc unbroken | string hc unbroken | keyword hc unbroken =>
    exact inLine_word hc unbroken fun _ _ => rfl
  | number hc value unbroken =>
    exact inLine_word hc unbroken fun o depth => by simp only [ofContents, value]
  | elision hx =>
    exact fun _ _ htexts _ => prints_of_bare htexts hf hx rfl rfl (List.append_nil _).symm
  | array hc elements =>
    intro o texts htexts depth
    obtain ⟨parts, own, written⟩ := elements o texts htexts
    refine prints_array htexts hc own ?_
    simp [written]
  | object hc properties =>
    intro o texts htexts depth
    obtain ⟨parts, own, written⟩ := properties o texts htexts
    refine prints_object htexts hc own ?_
    simp [written]
  | property hc hkey hvalue =>
    intro o texts htexts depth
    refine prints_property htexts hc (hkey o texts htexts 0) (hvalue o texts htexts 0) ?_
    simp

end

/-! ## In lines -/

/-- A link is laid out as a paragraph, however it is printed. -/
def InLines (f : Forest) (x : Link) (l : Paragraph) : Prop :=
  ∀ o : PrinterOptions, o.IsPlain → ∀ texts, (assembly f o).Recursive texts → ∀ depth,
    Prints texts x depth (l.printed o depth)

/-- What is printed for the statements of a list. -/
theorem printsAll_of_inLines {o : PrinterOptions} (ho : o.IsPlain)
    {texts : PrintJob → Except TreeError String} (htexts : (assembly f o).Recursive texts)
    (depth : Nat) {xs : List Link} {ls : List Paragraph} (h : List.Forall₂ (InLines f) xs ls) :
    PrintsAll texts depth xs (ls.map fun l => String.ofList (l.printed o depth)) :=
  List.forall₂_map_right_iff.mpr (h.imp fun _ _ inLines => inLines o ho texts htexts depth)

/-- How a node is laid out in lines, given how its children are.  The branches of a condition and
the body of a loop stand in the same line if they are blocks, and so does a condition behind
`else`. -/
inductive LaidAs (f : Forest) (x : Link) : Paragraph → Prop where
  | empty (hx : f.kind? x = some .emptyStatement) : LaidAs f x .empty
  | expression {c : Contents.ExpressionStatement}
    (hc : f.contents? x = some (.expressionStatement c)) {e : Fragment}
    (he : InLine f c.expression e) : LaidAs f x (.expression e)
  | block {c : Contents.Block} (hc : f.contents? x = some (.block c)) {ls : List Paragraph}
    (h : List.Forall₂ (InLines f) c.statements ls) : LaidAs f x (.block ls)
  | conditional {c : Contents.IfStatement} (hc : f.contents? x = some (.ifStatement c))
    {test : Fragment} (htest : InLine f c.condition test) {l : Paragraph}
    (hthen : InLines f c.thenPart l) (helse : c.elsePart = none) :
    LaidAs f x (.conditional test (isBlock f c.thenPart) l)
  | alternative {c : Contents.IfStatement} (hc : f.contents? x = some (.ifStatement c))
    {test : Fragment} (htest : InLine f c.condition test) {l l' : Paragraph}
    (hthen : InLines f c.thenPart l) (helse : InLines f c.elsePart l') :
    LaidAs f x (.alternative test (isBlock f c.thenPart) l
      (isBlock f c.elsePart || f.kind? c.elsePart == some .ifStatement) l')
  | attempt {c : Contents.TryStatement} (hc : f.contents? x = some (.tryStatement c))
    {l : Paragraph} (htry : InLines f c.tryBlock l) {ls : List Paragraph}
    (hcatch : List.Forall₂ (InLines f) c.catchClauses ls) {last : Option Paragraph}
    (hlast : c.finallyBlock = none ∧ last = none ∨
      ∃ l', last = some l' ∧ InLines f c.finallyBlock l') : LaidAs f x (.attempt l ls last)
  | clause {c : Contents.CatchClause} (hc : f.contents? x = some (.catchClause c))
    {parameter : Fragment} (hparameter : InLine f c.varName parameter) {guard : Option Fragment}
    (hguard : c.guard = none ∧ guard = none ∨ ∃ g, guard = some g ∧ InLine f c.guard g)
    {l : Paragraph} (hbody : InLines f c.body l) : LaidAs f x (.clause parameter guard l)
  | forIn {c : Contents.ForInLoop} (hc : f.contents? x = some (.forInLoop c))
    {iterator object : Fragment} (hiterator : InLine f c.iterator iterator)
    (hobject : InLine f c.iteratedObject object) {l : Paragraph}
    (hbody : InLines f c.loop.body l) :
    LaidAs f x (.forIn c.isForEach iterator object (isBlock f c.loop.body) l)
  | doWhile {c : Contents.DoLoop} (hc : f.contents? x = some (.doLoop c)) {l : Paragraph}
    (hbody : InLines f c.loop.body l) {test : Fragment} (htest : InLine f c.condition test) :
    LaidAs f x (.doWhile l test)
  | whileDo {c : Contents.WhileLoop} (hc : f.contents? x = some (.whileLoop c)) {test : Fragment}
    (htest : InLine f c.condition test) {l : Paragraph} (hbody : InLines f c.loop.body l) :
    LaidAs f x (.whileDo test (isBlock f c.loop.body) l)

/-- As a node is laid out, so it is printed. -/
theorem LaidAs.inLines (hf : f.Linked) {x : Link} {l : Paragraph} (h : LaidAs f x l) :
    InLines f x l := by
  intro o ho texts htexts depth
  have trims (l : Paragraph) := l.toList_trim depth ho
  cases h with
  | empty hx =>
    refine prints_of_bare htexts hf hx rfl rfl ?_
    simp [Paragraph.empty]
  | expression hc he =>
    refine prints_expressionStatement htexts hc (he o texts htexts depth) ?_
    simp
  | block hc h =>
    refine prints_block htexts hc (printsAll_of_inLines ho htexts (depth + 1) h) ?_
    simp [-String.ofList_append, toList_concat, List.flatMap_map, Paragraph.block,
      Paragraph.spell_flatMap_ownLines]
  | @conditional c hc _ htest l hthen helse =>
    refine prints_conditional htexts hf hc (htest o texts htexts 0) (hthen o ho texts htexts depth)
      helse ?_
    cases isBlock f c.thenPart <;> simp [-String.ofList_append, trims, Paragraph.conditional]
  | @alternative c hc _ htest l l' hthen helse =>
    refine prints_alternative htexts hf hc (htest o texts htexts 0) (hthen o ho texts htexts depth)
      (helse o ho texts htexts depth) ?_
    cases isBlock f c.thenPart <;>
      cases isBlock f c.elsePart || f.kind? c.elsePart == some .ifStatement <;>
      simp [-String.ofList_append, trims, Paragraph.alternative, Paragraph.elseWord]
  | attempt hc htry hcatch hlast =>
    have tryText := htry o ho texts htexts depth
    have printed := printsAll_of_inLines ho htexts depth hcatch
    rcases hlast with ⟨absent, rfl⟩ | ⟨l', rfl, hfinally⟩
    · refine prints_attempt htexts hc tryText printed (.absent absent) ?_
      simp [-String.ofList_append, toList_concat, List.flatMap_map, trims, Paragraph.attempt,
        Paragraph.spell_inTurn]
    · refine prints_attempt htexts hc tryText printed
        (.present (hfinally o ho texts htexts depth)) ?_
      simp [-String.ofList_append, toList_concat, List.flatMap_map, trims, Paragraph.attempt,
        Paragraph.spell_inTurn]
  | clause hc hparameter hguard hbody =>
    have parameterText := hparameter o texts htexts 0
    have bodyText := hbody o ho texts htexts depth
    rcases hguard with ⟨absent, rfl⟩ | ⟨g, rfl, hguard⟩
    · refine prints_catchClause htexts hf hc parameterText (.absent absent) bodyText ?_
      simp [-String.ofList_append, trims, Paragraph.clause]
    · refine prints_catchClause htexts hf hc parameterText (.present (hguard o texts htexts 0))
        bodyText ?_
      simp [-String.ofList_append, trims, Paragraph.clause]
  | @forIn c hc _ _ hiterator hobject l hbody =>
    refine prints_forIn htexts hf hc (hiterator o texts htexts 0) (hobject o texts htexts 0)
      (hbody o ho texts htexts _) ?_
    cases c.isForEach <;> cases block : isBlock f c.loop.body <;>
      simp [-String.ofList_append, trims, Paragraph.forIn]
  | doWhile hc hbody htest =>
    refine prints_doWhile htexts hf hc (hbody o ho texts htexts depth) (htest o texts htexts 0) ?_
    simp [-String.ofList_append, trims, Paragraph.doWhile]
  | @whileDo c hc _ htest l hbody =>
    refine prints_whileDo htexts hf hc (htest o texts htexts 0) (hbody o ho texts htexts _) ?_
    cases block : isBlock f c.loop.body <;>
      simp [-String.ofList_append, trims, Paragraph.whileDo]

/-! ## Going down -/

/-- What is known of a link below which everything is as it should be. -/
structure LaidOut (f : Forest) (x : Link) : Prop where
  setAs : ∀ k, f.kind? x = some k → k.isInline → ∃ content, SetAs f x content
  laidAs : ∀ k, f.kind? x = some k → k.isInline = false → ∃ l, LaidAs f x l

namespace LaidOut

variable (hf : f.Linked) {x : Link} (h : LaidOut f x)
include hf h

theorem inLine {k : Kind} (hk : f.kind? x = some k) (inline : k.isInline) :
    ∃ content, InLine f x content :=
  (h.setAs k hk inline).imp fun _ => SetAs.inLine hf

theorem inLines {k : Kind} (hk : f.kind? x = some k) (spread : k.isInline = false) :
    ∃ l, InLines f x l :=
  (h.laidAs k hk spread).imp fun _ => LaidAs.inLines hf

end LaidOut

theorem isInline_eq_false_of_isStatement {k : Kind} (h : k.isStatement) : k.isInline = false := by
  rw [Kind.isInline, h]
  rfl

/-- What stands below a node is a node. -/
theorem exists_kind?_of_link (hf : f.Linked) {x : Link} {c : Contents}
    (hc : f.contents? x = some c) {a : Link} (ha : a ∈ c.links) (present : a.isSome) :
    ∃ k, f.kind? a = some k := by
  obtain ⟨y, rfl⟩ := Option.isSome_iff_exists.mp present
  have known := hf.contains_of_mem_children (Forest.mem_children_iff.mpr ⟨c, hc, ha⟩)
  obtain ⟨header, hheader⟩ := Forest.exists_header?_of_contains known
  exact ⟨_, Forest.kind?_of_header? hheader⟩

section

variable (hf : f.Linked) {x : Link} (neat : f.Neat x) {c : Contents}
  (hc : f.contents? x = some c) (below : ∀ a ∈ c.links, LaidOut f a)
include hf neat hc below

/-- What a slot holds has the kind that the slot is for. -/
theorem exists_kind?_of_child? (slot : ChildSlot) {a : Link} (ha : c.child? slot = some a)
    (present : a.isSome) : ∃ k, f.kind? a = some k ∧ slot.sorts k ∧ LaidOut f a := by
  have listed := Contents.mem_links_of_child? ha
  obtain ⟨k, hk⟩ := exists_kind?_of_link hf hc listed present
  exact ⟨k, hk, neat.sorts_of_child? hf hc ha hk, below a listed⟩

theorem exists_inLine_of_child? (slot : ChildSlot) {a : Link} (ha : c.child? slot = some a)
    (expression : slot.holdsStatement = false) (present : a.isSome) :
    ∃ content, InLine f a content := by
  obtain ⟨k, hk, sorts, laidOut⟩ := exists_kind?_of_child? hf neat hc below slot ha present
  rw [ChildSlot.sorts, expression] at sorts
  exact laidOut.inLine hf hk sorts

theorem exists_inLines_of_child? (slot : ChildSlot) {a : Link} (ha : c.child? slot = some a)
    (statement : slot.holdsStatement) (present : a.isSome) : ∃ l, InLines f a l := by
  obtain ⟨k, hk, sorts, laidOut⟩ := exists_kind?_of_child? hf neat hc below slot ha present
  rw [ChildSlot.sorts, if_pos statement] at sorts
  exact laidOut.inLines hf hk (isInline_eq_false_of_isStatement sorts)

omit neat in
/-- What a list holds has a kind. -/
theorem exists_kind?_of_list? (slot : ListSlot) {xs : List Link} (hxs : c.list? slot = some xs) :
    ∀ a ∈ xs, ∃ k, f.kind? a = some k ∧ LaidOut f a := by
  intro a ha
  have entry : a ∈ f.list x slot := by rwa [Forest.list, hc, Option.bind_some, hxs]
  obtain ⟨k, hk, -⟩ := hf.entries (Forest.kind?_of_contents? hc) entry
  exact ⟨k, hk, below a (Contents.mem_links_of_list? hxs ha)⟩

/-- What is set within a line. -/
theorem exists_setAs (inline : c.kind.isInline) : ∃ content, SetAs f x content := by
  obtain ⟨complete, sorted, unbroken⟩ := neat.own hf hc
  have filled := c.complete_iff.mp complete
  cases c with
  | name c => exact ⟨_, .name hc unbroken⟩
  | numberLiteral c =>
    obtain ⟨token, value⟩ := c
    cases token with
    | none => cases filled
    | some token => exact ⟨_, .number hc rfl unbroken⟩
  | stringLiteral c =>
    have quote : isUnbroken [c.quote] := unbroken
    have token : isUnbroken (quoted c.quote c.value).toList := by
      rw [quoted, String.toList_ofList]
      simpa [Quoted.isUnbroken_body quote] using quote
    exact ⟨_, .string hc token⟩
  | keywordLiteral c =>
    have word : isUnbroken c.keyword.text.toList := by cases c.keyword <;> decide
    exact ⟨_, .keyword hc word⟩
  | arrayLiteral c =>
    have elements : ∀ a ∈ c.elements, ∃ content, InLine f a content := by
      intro a ha
      obtain ⟨k, hk, laidOut⟩ := exists_kind?_of_list? hf hc below .elements rfl a ha
      have fits := List.all_eq_true.mp (Bool.and_eq_true_iff.mp sorted).2 a ha
      rw [hk] at fits
      exact laidOut.inLine hf hk fits
    obtain ⟨inner, joins⟩ := exists_joins elements
    exact ⟨_, .array hc joins⟩
  | objectLiteral c =>
    have properties : ∀ a ∈ c.elements, ∃ content, InLine f a content := by
      intro a ha
      obtain ⟨k, hk, laidOut⟩ := exists_kind?_of_list? hf hc below .elements rfl a ha
      exact laidOut.inLine hf (hf.kind?_of_entry hc .elements rfl ha rfl) rfl
    obtain ⟨inner, joins⟩ := exists_joins properties
    exact ⟨_, .object hc joins⟩
  | objectProperty c =>
    obtain ⟨key, hkey⟩ := exists_inLine_of_child? hf neat hc below .left rfl rfl filled.1
    obtain ⟨value, hvalue⟩ := exists_inLine_of_child? hf neat hc below .right rfl rfl filled.2
    exact ⟨_, .property hc hkey hvalue⟩
  | block | expressionStatement | ifStatement | tryStatement | catchClause | forInLoop | doLoop
  | whileLoop => cases inline

/-- What is laid out in lines. -/
theorem exists_laidAs (spread : c.kind.isInline = false) : ∃ l, LaidAs f x l := by
  obtain ⟨complete, sorted, -⟩ := neat.own hf hc
  have filled := c.complete_iff.mp complete
  have inLine (slot : ChildSlot) {a : Link} (ha : c.child? slot = some a) :=
    exists_inLine_of_child? hf neat hc below slot ha
  have inLines (slot : ChildSlot) {a : Link} (ha : c.child? slot = some a) :=
    exists_inLines_of_child? hf neat hc below slot ha
  cases c with
  | block c =>
    have entries : ∀ a ∈ c.statements, ∃ l, InLines f a l := by
      intro a ha
      obtain ⟨k, hk, laidOut⟩ := exists_kind?_of_list? hf hc below .statements rfl a ha
      have fits := List.all_eq_true.mp (Bool.and_eq_true_iff.mp sorted).2 a ha
      rw [hk] at fits
      exact laidOut.inLines hf hk (isInline_eq_false_of_isStatement fits)
    obtain ⟨ls, hls⟩ := exists_forall₂ entries
    exact ⟨_, .block hc hls⟩
  | expressionStatement c =>
    obtain ⟨e, he⟩ := inLine .expression rfl rfl filled
    exact ⟨_, .expression hc he⟩
  | ifStatement c =>
    obtain ⟨test, htest⟩ := inLine .condition rfl rfl filled.1
    obtain ⟨l, hl⟩ := inLines .thenPart rfl rfl filled.2
    cases absent : c.elsePart with
    | none => exact ⟨_, .conditional hc htest hl absent⟩
    | some y =>
      obtain ⟨l', hl'⟩ := inLines .elsePart rfl rfl (absent ▸ rfl)
      exact ⟨_, .alternative hc htest hl hl'⟩
  | tryStatement c =>
    obtain ⟨l, hl⟩ := inLines .tryBlock rfl rfl filled
    have handlers : ∀ a ∈ c.catchClauses, ∃ l, InLines f a l := by
      intro a ha
      obtain ⟨k, hk, laidOut⟩ := exists_kind?_of_list? hf hc below .catchClauses rfl a ha
      exact laidOut.inLines hf (hf.kind?_of_entry hc .catchClauses rfl ha rfl) rfl
    obtain ⟨ls, hls⟩ := exists_forall₂ handlers
    cases absent : c.finallyBlock with
    | none => exact ⟨_, .attempt hc hl hls (.inl ⟨absent, rfl⟩)⟩
    | some y =>
      obtain ⟨l', hl'⟩ := inLines .finallyBlock rfl rfl (absent ▸ rfl)
      exact ⟨_, .attempt hc hl hls (.inr ⟨l', rfl, hl'⟩)⟩
  | catchClause c =>
    obtain ⟨parameter, hparameter⟩ := inLine .varName rfl rfl filled.1
    obtain ⟨l, hl⟩ := inLines .handlerBody rfl rfl filled.2
    cases absent : c.guard with
    | none => exact ⟨_, .clause hc hparameter (.inl ⟨absent, rfl⟩) hl⟩
    | some y =>
      obtain ⟨g, hg⟩ := inLine .guard rfl rfl (absent ▸ rfl)
      exact ⟨_, .clause hc hparameter (.inr ⟨g, rfl, hg⟩) hl⟩
  | forInLoop c =>
    obtain ⟨iterator, hiterator⟩ := inLine .iterator rfl rfl filled.2.1
    obtain ⟨object, hobject⟩ := inLine .iteratedObject rfl rfl filled.2.2
    obtain ⟨l, hl⟩ := inLines .body rfl rfl filled.1
    exact ⟨_, .forIn hc hiterator hobject hl⟩
  | doLoop c =>
    obtain ⟨l, hl⟩ := inLines .body rfl rfl filled.2
    obtain ⟨test, htest⟩ := inLine .condition rfl rfl filled.1
    exact ⟨_, .doWhile hc hl htest⟩
  | whileLoop c =>
    obtain ⟨test, htest⟩ := inLine .condition rfl rfl filled.1
    obtain ⟨l, hl⟩ := inLines .body rfl rfl filled.2
    exact ⟨_, .whileDo hc htest hl⟩
  | name | numberLiteral | stringLiteral | keywordLiteral | arrayLiteral | objectLiteral
  | objectProperty => cases spread

end

/-- **In a neat tree a node is printed within a line or in lines, as its kind says.** -/
theorem laidOut (hf : f.Linked) (x : Link) (neat : f.Neat x) : LaidOut f x := by
  induction x using hf.links_induction with
  | step x ih =>
    have below {c : Contents} (hc : f.contents? x = some c) : ∀ a ∈ c.links, LaidOut f a :=
      fun a ha => ih c hc a ha (neat.of_link hf hc ha)
    constructor <;> intro k hk sort
    · by_cases bare : k.isBare
      · cases k <;> cases bare <;> cases sort
        exact ⟨_, .elision hk⟩
      · obtain ⟨c, hc, rfl⟩ := hf.intact.exists_contents? hk (by simpa using bare)
        exact exists_setAs hf neat hc (below hc) sort
    · by_cases bare : k.isBare
      · cases k <;> cases bare <;> cases sort
        exact ⟨_, .empty hk⟩
      · obtain ⟨c, hc, rfl⟩ := hf.intact.exists_contents? hk (by simpa using bare)
        exact exists_laidAs hf neat hc (below hc) sort

/-! ## From the recursion to what is answered -/

theorem exists_texts (hf : f.Linked) (o : PrinterOptions) :
    ∃ texts, (assembly f o).Recursive texts :=
  ((follows f o).existsUnique_recursive hf.acyclic).exists

/-- A tree that is not too high is printed as the recursion says. -/
theorem Prints.print_eq {texts : PrintJob → Except TreeError String} {x : Link} {depth : Nat}
    {written : List Char} (h : Prints texts x depth written) (hf : f.Linked) {o : PrinterOptions}
    (htexts : (assembly f o).Recursive texts) (height : f.height x ≤ Forest.maxHeight) :
    f.print o x depth = .ok (String.ofList written) := by
  rw [Forest.print_eq, (follows f o).resultFor_eq (thorough f o) hf htexts height]
  exact h

theorem InLine.print_eq (hf : f.Linked) {x : Link} {content : Fragment} (h : InLine f x content)
    (height : f.height x ≤ Forest.maxHeight) (o : PrinterOptions) (depth : Nat) :
    f.print o x depth = .ok (String.ofList ((o.indent depth).toList ++ content.chars)) := by
  obtain ⟨texts, htexts⟩ := exists_texts hf o
  exact (h o texts htexts depth).print_eq hf htexts height

theorem InLines.print_eq (hf : f.Linked) {x : Link} {l : Paragraph} (h : InLines f x l)
    (height : f.height x ≤ Forest.maxHeight) {o : PrinterOptions} (ho : o.IsPlain) (depth : Nat) :
    f.print o x depth = .ok (String.ofList (l.printed o depth)) := by
  obtain ⟨texts, htexts⟩ := exists_texts hf o
  exact (h o ho texts htexts depth).print_eq hf htexts height

end Printer

variable {f : Forest} {loose : List NodeIndex} {x : NodeIndex}

/-- **The white space only lays out.**  A statement or a handler that is neat and not too high has
one list of lines, and these lines are what is printed, at every depth, with any blanks and tabs as
indentation, and with both ends of lines.  So one level deeper the same text is printed with the
unit in front of each line, and with carriage returns the same text is printed with one in front of
each line feed.  The lines are those of the tree and not of its nodes: where the same tree stands in
this forest or in another, it is printed as the same lines. -/
theorem Reached.print_in_lines (h : Reached f loose) {k : Kind} (hk : f.kind? (some x) = some k)
    (statement : k.isStatement ∨ k = .catchClause) (height : f.height (some x) ≤ Forest.maxHeight)
    (neat : f.Neat (some x)) :
    (∃! lines : List Line, ∀ o : PrinterOptions, o.IsPlain → ∀ depth,
      f.print o (some x) depth = .ok (String.ofList (Line.text o depth lines))) ∧
    (∀ o : PrinterOptions, o.IsPlain → ∀ depth text, f.print o (some x) depth = .ok text →
      f.print o (some x) (depth + 1) =
        .ok (String.ofList (inFront o.indentUnit.toList true text.toList))) ∧
    (∀ o : PrinterOptions, o.IsPlain → o.newline = .lineFeed → ∀ depth text,
      f.print o (some x) depth = .ok text →
        f.print { o with newline := .carriageReturnLineFeed } (some x) depth =
          .ok (String.ofList (withReturns text.toList))) ∧
    ∀ {g : Forest} {loose' : List NodeIndex} {y : NodeIndex}, Reached g loose' →
      f.Same g (some x) (some y) → ∀ o depth,
        g.print o (some y) depth = f.print o (some x) depth := by
  have hf := h.tended.linked
  have spread : k.isInline = false := by
    rcases statement with isStatement | rfl
    · exact Printer.isInline_eq_false_of_isStatement isStatement
    · rfl
  obtain ⟨l, hl⟩ := (Printer.laidOut hf (some x) neat).inLines hf hk spread
  have printed (o : PrinterOptions) (ho : o.IsPlain) (depth : Nat) :
      f.print o (some x) depth = .ok (String.ofList (Line.text o depth l.lines)) := by
    rw [l.text_lines]
    exact hl.print_eq hf height ho depth
  have text_of_printed {o : PrinterOptions} (ho : o.IsPlain) {depth : Nat} {text : String}
      (htext : f.print o (some x) depth = .ok text) :
      text.toList = Line.text o depth l.lines := by
    obtain rfl := Except.ok.inj ((printed o ho depth).symm.trans htext)
    exact String.toList_ofList
  refine ⟨⟨l.lines, printed, fun lines' printed' => ?_⟩, ?_, ?_, ?_⟩
  · refine Line.eq_of_text_eq fun o ho => ?_
    have same := Except.ok.inj ((printed' o ho 0).symm.trans (printed o ho 0))
    simpa using congrArg String.toList same
  · intro o ho depth text htext
    rw [printed o ho, text_of_printed ho htext, Line.text_succ ho]
  · intro o ho usual depth text htext
    have ho' : PrinterOptions.IsPlain { o with newline := .carriageReturnLineFeed } := ho
    rw [printed _ ho', text_of_printed ho htext, Line.text_carriageReturn ho usual]
  · intro g loose' y hg same o depth
    obtain ⟨header, hheader, -⟩ := Option.map_eq_some_iff.mp hk
    exact same.print_eq hf hg.tended.linked (Forest.contains_of_header? hheader) o depth

/-- A loop over a condition, of which one branch stands in a line of its own and one goes on. -/
def Command.looped : List (Nat × Command) :=
  [(1, .construct (.node .whileLoop 0 0)), (2, .construct (.name 0 "a")),
    (3, .construct (.node .ifStatement 0 0)), (4, .construct (.name 0 "b")),
    (5, .construct (.node .emptyStatement 0 0)), (6, .construct (.node .block 0 0)),
    (0, .edit (.setChild .condition (some 0) (some 1))),
    (0, .edit (.setChild .body (some 0) (some 2))),
    (0, .edit (.setChild .condition (some 2) (some 3))),
    (0, .edit (.setChild .thenPart (some 2) (some 4))),
    (0, .edit (.setChild .elsePart (some 2) (some 5)))]

theorem Command.neat_looped : (Command.perform Command.looped).1.Neat (some 0) := by
  decide +kernel

/-- The loop is the same lines, whatever the white space is, and so is a clone of it. -/
theorem print_in_lines_looped : ∃ lines copy g,
    (Editing.clone (some 0) none).run (Command.perform Command.looped).1 = .ok copy g ∧
      ∀ o : PrinterOptions, o.IsPlain → ∀ depth,
        (Command.perform Command.looped).1.print o (some 0) depth =
          .ok (String.ofList (Line.text o depth lines)) ∧
        g.print o (some copy) depth = .ok (String.ofList (Line.text o depth lines)) := by
  have reached := reached_perform Command.looped
  have kind : (Command.perform Command.looped).1.kind? (some 0) = some .whileLoop := by
    decide +kernel
  obtain ⟨⟨lines, printed, -⟩, -, -, elsewhere⟩ := Reached.print_in_lines reached kind (.inl rfl)
    (by decide +kernel) Command.neat_looped
  have clonable : (Command.perform Command.looped).1.Clonable (some 0) none :=
    ⟨by decide +kernel, .inl rfl, by decide +kernel⟩
  have linked := reached.tended.linked
  obtain ⟨g, run, cloned⟩ := linked.run_clone clonable
  obtain ⟨loose, reached'⟩ := reached.clone run
  have same := cloned.alike_copy.same linked clonable.node
  rw [linked.copyOf_source clonable.node] at same
  refine ⟨lines, _, g, run, fun o plain depth => ⟨printed o plain depth, ?_⟩⟩
  rw [elsewhere reached' same]
  exact printed o plain depth

end SyntaxForest
