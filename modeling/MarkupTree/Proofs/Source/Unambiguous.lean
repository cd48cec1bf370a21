import Mathlib.Data.List.Chain
import MarkupTree.Proofs.Node.Forest
import MarkupTree.Proofs.Source.Characters

/-! Source text is not escaped, so two trees can read alike. Where no part of a tree holds
the character that ends it, and no name looks like other markup, the text determines the
tree up to spans. The induction carries arbitrary text behind each node and forest. -/
namespace MarkupTree

/-- Such a name stands between `<` and a blank or `>`, and no closing tag or comment
begins the same way. -/
structure NameClean (name : String) : Prop where
  read : ∃ raw, Tag.nameOf raw = name
  nonempty : name ≠ ""
  unclosed : '>' ∉ name.toList
  noClosingTag : ¬ "/".toList <+: name.toList
  noComment : ¬ "!--".toList <+: name.toList

namespace Node

/-- Neighbouring texts would read as one. -/
def TextsApart (forest : List Node) : Prop :=
  forest.IsChain fun first second => ¬ (first.kind = .text ∧ second.kind = .text)

/-- Trees in which every part of the source shows where it ends. -/
inductive Clean : Node → Prop where
  | element {e : Element} (name : NameClean e.name.text)
      (entries : ∀ entry ∈ e.attributes.entries, Attributes.EntryClean entry)
      (apart : TextsApart e.children) (children : ∀ child ∈ e.children, Clean child) : Clean (.element e)
  | text {span : Span} {content : String} (nonempty : content ≠ "") (unopened : '<' ∉ content.toList) :
      Clean (.text span content)
  | comment {span : Span} {content : String} (unclosed : ¬ commentEnd <:+: content.toList) :
      Clean (.comment span content)

/-- Agreement of two trees in everything but spans. Attributes keep their order. -/
inductive SameMarkup : Node → Node → Prop where
  | element {e other : Element} (name : e.name.text = other.name.text)
      (attributes : e.attributes.entries = other.attributes.entries)
      (children : List.Forall₂ SameMarkup e.children other.children) :
      SameMarkup (.element e) (.element other)
  | text (span other : Span) (content : String) : SameMarkup (.text span content) (.text other content)
  | comment (span other : Span) (content : String) : SameMarkup (.comment span content) (.comment other content)

end Node

namespace NameClean
variable {name other : String} (clean : NameClean name)

include clean

theorem ends (c : Char) (member : c ∈ name.toList) : (c != ' ' && c != '>') = true := by
  obtain ⟨raw, rfl⟩ := clean.read
  have noBlank : Tag.isBlank c = false := Tag.not_isBlank_of_mem_nameChars (Tag.toList_nameOf raw ▸ member)
  have noSpace : c ≠ ' ' := by
    rintro rfl
    exact Bool.noConfusion noBlank
  have noEnd : c ≠ '>' := fun equal => clean.unclosed (equal ▸ member)
  simp [noSpace, noEnd]

/-- A name has no blank, so it stops where the attributes or the end of the tag begin. -/
theorem takeWhile_append (entries : List (String × String)) (rest : List Char) :
    (name.toList ++ (entries.flatMap Attributes.entryChars ++ '>' :: rest)).takeWhile
      (fun c => c != ' ' && c != '>') = name.toList := by
  refine takeWhile_append_of_boundary clean.ends fun c first => ?_
  rcases Attributes.head?_entries_append c first with rfl | rfl <;> rfl

theorem append_inj (otherClean : NameClean other) {entries others : List (String × String)}
    {rest following : List Char}
    (same : name.toList ++ (entries.flatMap Attributes.entryChars ++ '>' :: rest) =
      other.toList ++ (others.flatMap Attributes.entryChars ++ '>' :: following)) :
    name = other ∧ entries.flatMap Attributes.entryChars ++ '>' :: rest =
      others.flatMap Attributes.entryChars ++ '>' :: following := by
  have names : name.toList = other.toList := by
    rw [← clean.takeWhile_append entries rest, same, otherClean.takeWhile_append others following]
  obtain rfl := String.toList_injective names
  exact ⟨rfl, List.append_cancel_left same⟩

theorem ne_closingTag {entries : List (String × String)} {rest following : List Char} :
    name.toList ++ (entries.flatMap Attributes.entryChars ++ '>' :: rest) ≠ '/' :: following := by
  intro same
  have starts := clean.takeWhile_append entries rest
  rw [same, List.takeWhile_cons_of_pos (by decide)] at starts
  exact clean.noClosingTag ⟨_, starts⟩

theorem ne_comment {entries : List (String × String)} {rest following : List Char} :
    name.toList ++ (entries.flatMap Attributes.entryChars ++ '>' :: rest) ≠ '!' :: '-' :: '-' :: following := by
  intro same
  have starts := clean.takeWhile_append entries rest
  rw [same, List.takeWhile_cons_of_pos (by decide), List.takeWhile_cons_of_pos (by decide),
    List.takeWhile_cons_of_pos (by decide)] at starts
  exact clean.noComment ⟨_, starts⟩

end NameClean

namespace Node

/-- Text behind a node must not read on in it, which only a text node would let it do. -/
def Stops (node : Node) (rest : List Char) : Prop := node.kind = .text → ∀ c ∈ rest.head?, c = '<'

/-- The source of a node marks its own end and determines the node, whatever follows it. -/
def Separates (node : Node) : Prop :=
  ∀ {other : Node} {rest following : List Char}, other.Clean → node.Stops rest → other.Stops following →
    node.source.toList ++ rest = other.source.toList ++ following → node.SameMarkup other ∧ rest = following

theorem toList_source_comment (span : Span) (content : String) :
    (Node.comment span content).source.toList = '<' :: '!' :: '-' :: '-' :: (content.toList ++ commentEnd) := by
  simp [commentEnd]

theorem Clean.text_ne_markup {span : Span} {content : String} (clean : (Node.text span content).Clean)
    {rest following : List Char} : content.toList ++ rest ≠ '<' :: following := by
  intro same
  cases clean with
  | text nonempty unopened =>
    obtain ⟨c, chars, split⟩ := List.exists_cons_of_ne_nil (mt String.toList_eq_nil_iff.mp nonempty)
    rw [split] at same
    exact unopened (by simp [split, List.head_eq_of_cons_eq same])

theorem Clean.exists_toList_source {node : Node} (clean : node.Clean) (markup : node.kind ≠ .text) :
    ∃ chars, node.source.toList = '<' :: chars := by
  cases clean with
  | element name =>
    have chars := Element.toList_source_append name.nonempty []
    rw [List.append_nil] at chars
    exact ⟨_, (congrArg String.toList (source_element _)).trans chars⟩
  | text => exact absurd rfl markup
  | comment => exact ⟨_, toList_source_comment _ _⟩

theorem Clean.ne_closingTag {node : Node} (clean : node.Clean) {rest following : List Char} :
    node.source.toList ++ rest ≠ '<' :: '/' :: following := by
  intro same
  cases node with
  | element e =>
    cases clean with
    | element name =>
      rw [source_element, Element.toList_source_append name.nonempty] at same
      exact name.ne_closingTag (List.tail_eq_of_cons_eq same)
  | text span content => exact clean.text_ne_markup same
  | comment span content => simp at same

theorem stops_forest {first : Node} {forest : List Node} (clean : ∀ node ∈ forest, node.Clean)
    (apart : TextsApart (first :: forest)) (rest : List Char) :
    first.Stops ((forestSource forest).toList ++ '<' :: rest) := by
  intro text c start
  cases forest with
  | nil => simpa using start.symm
  | cons second forest =>
    have markup : second.kind ≠ .text := fun alike => (List.isChain_cons_cons.mp apart).1 ⟨text, alike⟩
    obtain ⟨chars, split⟩ := (clean second (by simp)).exists_toList_source markup
    simpa [split] using start.symm

/-- A forest inside an element ends at the closing tag, which no node begins like. -/
theorem forest_append_inj {forest others : List Node} {rest following : List Char}
    (separates : ∀ node ∈ forest, node.Separates)
    (clean : ∀ node ∈ forest, node.Clean) (otherClean : ∀ node ∈ others, node.Clean)
    (apart : TextsApart forest) (otherApart : TextsApart others)
    (same : (forestSource forest).toList ++ '<' :: '/' :: rest =
      (forestSource others).toList ++ '<' :: '/' :: following) :
    List.Forall₂ SameMarkup forest others ∧ rest = following := by
  induction forest generalizing others with
  | nil =>
    cases others with
    | nil => exact ⟨.nil, List.tail_eq_of_cons_eq (List.tail_eq_of_cons_eq same)⟩
    | cons other others =>
      rw [forestSource_cons, String.toList_append, List.append_assoc] at same
      exact absurd same.symm (otherClean other (by simp)).ne_closingTag
  | cons first forest ih =>
    cases others with
    | nil =>
      rw [forestSource_cons, String.toList_append, List.append_assoc] at same
      exact absurd same (clean first (by simp)).ne_closingTag
    | cons other others =>
      simp only [List.forall_mem_cons] at separates clean otherClean
      simp only [forestSource_cons, String.toList_append, List.append_assoc] at same
      obtain ⟨firsts, tails⟩ := separates.1 otherClean.1 (stops_forest clean.2 apart _)
        (stops_forest otherClean.2 otherApart _) same
      obtain ⟨forests, rests⟩ := ih separates.2 clean.2 otherClean.2 apart.tail otherApart.tail tails
      exact ⟨.cons firsts forests, rests⟩

theorem separates_element {e : Element} (clean : (Node.element e).Clean)
    (children : ∀ child ∈ e.children, child.Separates) : (Node.element e).Separates := by
  intro other rest following otherClean _ _ same
  cases clean with
  | element name entries apart cleanChildren =>
    rw [source_element, Element.toList_source_append name.nonempty] at same
    cases other with
    | element f =>
      -- name, attributes and children end one after the other; the closing tag repeats the name
      cases otherClean with
      | element otherName otherEntries otherApart otherChildren =>
        rw [source_element, Element.toList_source_append otherName.nonempty] at same
        obtain ⟨names, tags⟩ := name.append_inj otherName (List.tail_eq_of_cons_eq same)
        obtain ⟨attributes, insides⟩ := Attributes.entries_append_inj entries otherEntries tags
        obtain ⟨forests, closings⟩ :=
          forest_append_inj children cleanChildren otherChildren apart otherApart insides
        rw [names] at closings
        exact ⟨.element names attributes forests,
          List.tail_eq_of_cons_eq (List.append_cancel_left closings)⟩
    | text span content => exact absurd same.symm otherClean.text_ne_markup
    | comment span content =>
      rw [toList_source_comment] at same
      exact absurd (List.tail_eq_of_cons_eq same) name.ne_comment

theorem separates_text {span : Span} {content : String} (clean : (Node.text span content).Clean) :
    (Node.text span content).Separates := by
  intro other rest following otherClean stops otherStops same
  by_cases markup : other.kind = .text
  · cases clean with
    | text nonempty unopened =>
      cases otherClean with
      | text otherNonempty otherUnopened =>
        have inside : ∀ {content : String}, '<' ∉ content.toList → ∀ c ∈ content.toList, (c != '<') = true :=
          fun free c member => bne_iff_ne.mpr fun equal => free (equal ▸ member)
        obtain ⟨contents, rests⟩ := append_inj_of_boundary (inside unopened) (inside otherUnopened)
          (fun c start => by simp [stops rfl c start]) (fun c start => by simp [otherStops rfl c start]) same
        obtain rfl := String.toList_injective contents
        exact ⟨.text _ _ _, rests⟩
      | element | comment => exact Kind.noConfusion markup
  · obtain ⟨chars, split⟩ := otherClean.exists_toList_source markup
    rw [split] at same
    exact absurd same clean.text_ne_markup

theorem separates_comment {span : Span} {content : String} (clean : (Node.comment span content).Clean) :
    (Node.comment span content).Separates := by
  intro other rest following otherClean _ _ same
  rw [toList_source_comment] at same
  cases other with
  | element f =>
    cases otherClean with
    | element otherName =>
      rw [source_element, Element.toList_source_append otherName.nonempty] at same
      exact absurd (List.tail_eq_of_cons_eq same).symm otherName.ne_comment
  | text otherSpan otherContent => exact absurd same.symm otherClean.text_ne_markup
  | comment otherSpan otherContent =>
    cases clean with
    | comment unclosed =>
      cases otherClean with
      | comment otherUnclosed =>
        rw [toList_source_comment] at same
        simp only [List.cons_append, List.append_assoc, List.cons.injEq, true_and] at same
        obtain ⟨contents, rests⟩ := append_inj_of_commentEnd unclosed otherUnclosed same
        obtain rfl := String.toList_injective contents
        exact ⟨.comment _ _ _, rests⟩

theorem Clean.separates {node : Node} (clean : node.Clean) : node.Separates := by
  induction node using Node.induction with
  | element e ih =>
    refine separates_element clean fun child member => ?_
    cases clean with
    | element _ _ _ children => exact ih child member (children child member)
  | text span content => exact separates_text clean
  | comment span content => exact separates_comment clean

theorem forestSource_congr {forest others : List Node}
    (same : List.Forall₂ (fun node other => node.source = other.source) forest others) :
    forestSource forest = forestSource others := by
  induction same with
  | nil => rfl
  | cons nodes _ ih => rw [forestSource_cons, forestSource_cons, nodes, ih]

theorem SameMarkup.source_eq {node other : Node} (same : node.SameMarkup other) :
    node.source = other.source := by
  induction node using Node.induction generalizing other with
  | element e ih =>
    cases same with
    | @element _ f name attributes children =>
      have forests : forestSource e.children = forestSource f.children :=
        forestSource_congr (forall₂_imp_of_mem (fun child member twin => ih child member) children)
      simp only [source_element, Element.source_eq, Element.openingTag, Element.closingTag, Attributes.source,
        name, attributes, forests]
  | text span content =>
    cases same
    rfl
  | comment span content =>
    cases same
    rfl

/-- Clean trees read alike exactly where they agree in everything but spans. -/
theorem source_eq_iff_sameMarkup {node other : Node} (clean : node.Clean) (otherClean : other.Clean) :
    node.source = other.source ↔ node.SameMarkup other := by
  refine ⟨fun same => ?_, SameMarkup.source_eq⟩
  have stops (node : Node) : node.Stops [] := fun _ c start => by simp at start
  exact (clean.separates otherClean (stops node) (stops other) (by rw [same])).1

/-- A tree full of half markup: a name that is nearly a comment and ends in a slash, tags in
attributes, an end marker in a text and a comment that ends in dashes. -/
def halfMarkup (start : Nat) : Node :=
  .element ⟨⟨start, start + 60⟩, ⟨"!-<x/", ⟨start, start + 30⟩⟩, .ofList [("a >", "<b k='/>"), ("", "é")],
    [.text ⟨start, start⟩ "--> é", .comment ⟨start, start⟩ "<!----",
      .element ⟨⟨start, start⟩, ⟨"!-<x/", ⟨start, start⟩⟩, ∅, []⟩]⟩

theorem clean_halfMarkup (start : Nat) : (halfMarkup start).Clean := by
  have name : NameClean "!-<x/" :=
    ⟨⟨"<!-<x/ a=''>", by decide +kernel⟩, by decide, by decide, by decide, by decide⟩
  have inner : (Node.element ⟨⟨start, start⟩, ⟨"!-<x/", ⟨start, start⟩⟩, ∅, []⟩).Clean :=
    .element name (fun entry member => nomatch member) .nil (fun child member => nomatch member)
  refine .element name ?_ ?_ ?_
  · show ∀ entry ∈ [("a >", "<b k='/>"), ("", "é")], Attributes.EntryClean entry
    simp [Attributes.EntryClean]
  · simp [TextsApart]
  · simp only [List.forall_mem_cons, List.not_mem_nil, false_implies, implies_true, and_true]
    exact ⟨.text (by decide) (by decide), .comment (by decide +kernel), inner⟩

theorem source_eq_iff_sameMarkup_halfMarkup :
    (halfMarkup 0).Clean ∧ (halfMarkup 7).Clean ∧
      ((halfMarkup 0).source = (halfMarkup 7).source ↔ (halfMarkup 0).SameMarkup (halfMarkup 7)) :=
  ⟨clean_halfMarkup 0, clean_halfMarkup 7, source_eq_iff_sameMarkup (clean_halfMarkup 0) (clean_halfMarkup 7)⟩

end Node

end MarkupTree
