import MarkupTree.Node.Offset
import MarkupTree.Node.Source

/-! Trees whose spans say where their source stands. In such a tree the search for an
offset reads the text: it finds a node exactly between the tags of the element it starts
at, and the span of a hit cuts the source of the hit out of the bytes of the whole. -/
namespace MarkupTree

/-- What stands between the tags of an element that is as wide as its source. -/
def Element.inside (e : Element) : Span :=
  ⟨e.span.start + e.openingTag.utf8ByteSize, e.span.stop - e.closingTag.utf8ByteSize⟩

namespace Node

def FitsSource (node : Node) : Prop := node.span.stop = node.span.start + node.source.utf8ByteSize

instance (node : Node) : Decidable node.FitsSource := inferInstanceAs (Decidable (_ = _))

/-- Each node starts where the one before it stops, and the first at the offset. -/
def Consecutive (start : Nat) : List Node → Prop
  | [] => True
  | first :: rest => first.span.start = start ∧ Consecutive first.span.stop rest

/-- All nodes are as wide as their sources. The children of an element stand side by side
behind its opening tag, but where there is no tag to write they may stand anywhere. -/
inductive LaidOut : Node → Prop where
  | element {e : Element} (fits : (Node.element e).FitsSource)
      (behind : e.name.text ≠ "" → Consecutive (e.span.start + e.openingTag.utf8ByteSize) e.children)
      (children : ∀ child ∈ e.children, LaidOut child) : LaidOut (.element e)
  | text {span : Span} {content : String} (fits : (Node.text span content).FitsSource) :
      LaidOut (.text span content)
  | comment {span : Span} {content : String} (fits : (Node.comment span content).FitsSource) :
      LaidOut (.comment span content)

theorem LaidOut.fits {node : Node} (laid : node.LaidOut) : node.FitsSource := by
  cases laid with
  | element fits | text fits | comment fits => exact fits

/-- Side by side, nodes contain just the offsets of their joint source. -/
theorem Consecutive.exists_mem_span_iff {start : Nat} {forest : List Node}
    (side : Consecutive start forest) (fits : ∀ node ∈ forest, node.FitsSource) (offset : Nat) :
    (∃ node ∈ forest, offset ∈ node.span) ↔
      start ≤ offset ∧ offset < start + (forestSource forest).utf8ByteSize := by
  induction forest generalizing start with
  | nil => simp
  | cons first rest ih =>
    obtain ⟨rfl, side⟩ := side
    rw [List.forall_mem_cons] at fits
    have width : first.span.stop = first.span.start + first.source.utf8ByteSize := fits.1
    have parts : (∃ node ∈ first :: rest, offset ∈ node.span) ↔
        offset ∈ first.span ∨ ∃ node ∈ rest, offset ∈ node.span := by simp
    rw [parts, ih side fits.2, forestSource_cons, String.utf8ByteSize_append, Span.mem_iff]
    omega

theorem Consecutive.start_eq {start : Nat} {before after : List Node} {child : Node}
    (side : Consecutive start (before ++ child :: after)) (fits : ∀ node ∈ before, node.FitsSource) :
    child.span.start = start + (forestSource before).utf8ByteSize := by
  induction before generalizing start with
  | nil => simpa using side.1
  | cons first before ih =>
    obtain ⟨rfl, side⟩ := side
    rw [List.forall_mem_cons] at fits
    have width : first.span.stop = first.span.start + first.source.utf8ByteSize := fits.1
    rw [ih side fits.2, width, forestSource_cons, String.utf8ByteSize_append, Nat.add_assoc]

/-- The source of the part stands in that of the whole, as far in as its span starts. -/
def Shows (whole part : Node) : Prop :=
  ∃ before after, whole.source = before ++ part.source ++ after ∧
    part.span.start = whole.span.start + before.utf8ByteSize

namespace Shows
variable {whole middle part : Node}

theorem trans (outer : whole.Shows middle) (inner : middle.Shows part) : whole.Shows part := by
  obtain ⟨before, after, split, start⟩ := outer
  obtain ⟨before', after', split', start'⟩ := inner
  refine ⟨before ++ before', after' ++ after, ?_, ?_⟩
  · rw [split, split']
    simp only [String.append_assoc]
  · rw [start', start, String.utf8ByteSize_append, Nat.add_assoc]

theorem within (shown : whole.Shows part) (fits : whole.FitsSource) (partFits : part.FitsSource) :
    whole.span.start ≤ part.span.start ∧ part.span.stop ≤ whole.span.stop := by
  obtain ⟨before, after, split, start⟩ := shown
  have width : whole.source.utf8ByteSize =
      before.utf8ByteSize + part.source.utf8ByteSize + after.utf8ByteSize := by
    rw [split, String.utf8ByteSize_append, String.utf8ByteSize_append]
  unfold FitsSource at fits partFits
  omega

theorem extract_eq (shown : whole.Shows part) (partFits : part.FitsSource) :
    whole.source.toUTF8.extract (part.span.start - whole.span.start) (part.span.stop - whole.span.start) =
      part.source.toUTF8 := by
  obtain ⟨before, after, split, start⟩ := shown
  have first : part.span.start - whole.span.start = before.toUTF8.size + 0 := by
    show _ = before.utf8ByteSize + 0
    omega
  have last : part.span.stop - whole.span.start = before.toUTF8.size + part.source.toUTF8.size := by
    show _ = before.utf8ByteSize + part.source.utf8ByteSize
    unfold FitsSource at partFits
    omega
  have bytes : whole.source.toUTF8 = before.toUTF8 ++ (part.source.toUTF8 ++ after.toUTF8) := by
    simp only [split, String.append_assoc, String.toUTF8_eq_toByteArray, String.toByteArray_append]
  rw [first, last, bytes, ByteArray.extract_append_size_add, ByteArray.extract_append_eq_left rfl]

end Shows

/-- Offsets inside a node give it a width, and only what can be written has one. -/
theorem LaidOut.source_ne_empty {node : Node} {offset : Nat} (laid : node.LaidOut) (here : offset ∈ node.span) :
    node.source ≠ "" := by
  intro empty
  have width := laid.fits
  rw [FitsSource, empty, String.utf8ByteSize_empty] at width
  have bounds := Span.mem_iff.mp here
  omega

section Element
variable {e : Element} (laid : (Node.element e).LaidOut) (named : e.name.text ≠ "")
include laid named

theorem LaidOut.consecutive :
    Consecutive (e.span.start + e.openingTag.utf8ByteSize) e.children ∧ ∀ child ∈ e.children, child.LaidOut := by
  cases laid with
  | element _ behind children => exact ⟨behind named, children⟩

theorem LaidOut.inside_eq : e.inside = ⟨e.span.start + e.openingTag.utf8ByteSize,
    e.span.start + e.openingTag.utf8ByteSize + (forestSource e.children).utf8ByteSize⟩ := by
  have width : e.span.stop = e.span.start + e.source.utf8ByteSize := by
    simpa only [FitsSource, source_element, span_element] using laid.fits
  rw [Element.source_of_named named, String.utf8ByteSize_append, String.utf8ByteSize_append] at width
  rw [Element.inside, Span.mk.injEq]
  omega

theorem LaidOut.nodeAt?_eq_none_iff_inside (offset : Nat) :
    (Node.element e).nodeAt? offset = none ↔ offset ∉ e.inside := by
  obtain ⟨side, children⟩ := laid.consecutive named
  have covered := side.exists_mem_span_iff (fun child member => (children child member).fits) offset
  rw [laid.inside_eq named, Span.mem_iff, ← covered, nodeAt?_eq_none_iff]
  simp

theorem LaidOut.shows_child {before after : List Node} {child : Node}
    (split : e.children = before ++ child :: after) : (Node.element e).Shows child := by
  obtain ⟨side, children⟩ := laid.consecutive named
  rw [split] at side children
  refine ⟨e.openingTag ++ forestSource before, forestSource after ++ e.closingTag, ?_, ?_⟩
  · rw [source_element, Element.source_of_named named, split, forestSource_append, forestSource_cons]
    simp only [String.append_assoc]
  · have start := side.start_eq fun node member => (children node (by simp [member])).fits
    rw [start, span_element, String.utf8ByteSize_append, Nat.add_assoc]

end Element

/-- The search keeps the text of its hit in view: each step goes to a child that shows in
the source, as a nameless element has no width to contain an offset. -/
theorem LaidOut.shows_nodeAt? {node hit : Node} {offset : Nat} (laid : node.LaidOut) (written : node.source ≠ "")
    (found : node.nodeAt? offset = some hit) :
    hit.LaidOut ∧ offset ∈ hit.span ∧ node.Shows hit ∧ hit.nodeAt? offset = none := by
  induction node using Node.induction with
  | text span content => exact absurd found (by simp [nodeAt?])
  | comment span content => exact absurd found (by simp [nodeAt?])
  | element e ih =>
    have named : e.name.text ≠ "" := fun nameless => written (by simp [Element.source_of_nameless nameless])
    obtain ⟨before, child, after, split, _, here, deeper⟩ := exists_child_of_nodeAt? found
    have member : child ∈ e.children := by
      rw [← children_element, split]
      simp
    have childLaid := (laid.consecutive named).2 child member
    have shown := laid.shows_child named split
    cases below : child.nodeAt? offset with
    | none =>
      rw [below, Option.getD_none] at deeper
      exact deeper ▸ ⟨childLaid, here, shown, below⟩
    | some deepest =>
      rw [below, Option.getD_some] at deeper
      subst deeper
      obtain ⟨hitLaid, hitHere, hitShown, last⟩ :=
        ih child member childLaid (childLaid.source_ne_empty here) below
      exact ⟨hitLaid, hitHere, shown.trans hitShown, last⟩

/-- In a laid-out tree the search from a named element answers for the offsets between its
tags, with the node whose source stands around the offset in the bytes of the whole. -/
theorem nodeAt?_of_laidOut {e : Element} (laid : (Node.element e).LaidOut) (named : e.name.text ≠ "")
    (offset : Nat) :
    ((Node.element e).nodeAt? offset = none ↔ offset ∉ e.inside) ∧
      ∀ hit, (Node.element e).nodeAt? offset = some hit →
        offset ∈ hit.span ∧ e.span.start ≤ hit.span.start ∧ hit.span.stop ≤ e.span.stop ∧
          (∀ child ∈ hit.children, offset ∉ child.span) ∧
          e.source.toUTF8.extract (hit.span.start - e.span.start) (hit.span.stop - e.span.start) =
            hit.source.toUTF8 := by
  refine ⟨laid.nodeAt?_eq_none_iff_inside named offset, fun hit found => ?_⟩
  have written : (Node.element e).source ≠ "" := by
    rw [source_element, Element.source_of_named named]
    simp [Element.openingTag]
  obtain ⟨hitLaid, here, shown, last⟩ := laid.shows_nodeAt? written found
  obtain ⟨first, stop⟩ := shown.within laid.fits hitLaid.fits
  have bytes := shown.extract_eq hitLaid.fits
  rw [source_element] at bytes
  exact ⟨here, first, stop, nodeAt?_eq_none_iff.mp last, bytes⟩

/-- `<p a="é">né<b>x</b></p>` from offset 3 on, with two nodes without a width in front of
the text, one of them nameless around a text that is not in the source. -/
def laidOutParagraph : Element :=
  ⟨⟨3, 28⟩, ⟨"p", ⟨3, 13⟩⟩, .ofList [("a", "é")],
    [.element ⟨⟨13, 13⟩, ⟨"", ⟨13, 15⟩⟩, ∅, [.text ⟨50, 54⟩ "lost"]⟩, .text ⟨13, 13⟩ "", .text ⟨13, 16⟩ "né",
      .element ⟨⟨16, 24⟩, ⟨"b", ⟨16, 19⟩⟩, ∅, [.text ⟨19, 20⟩ "x"]⟩]⟩

theorem laidOut_laidOutParagraph : (Node.element laidOutParagraph).LaidOut := by
  refine .element (by decide +kernel) (fun _ => ?_) ?_
  · exact ⟨rfl, rfl, rfl, by decide +kernel, trivial⟩
  · show ∀ child ∈ [_, _, _, _], LaidOut child
    simp only [List.forall_mem_cons, List.not_mem_nil, false_implies, implies_true, and_true]
    refine ⟨.element (by decide +kernel) (fun named => absurd rfl named) ?_, .text (by decide +kernel),
      .text (by decide +kernel), .element (by decide +kernel) (fun _ => ⟨by decide +kernel, trivial⟩) ?_⟩
    · exact fun child member => List.mem_singleton.mp member ▸ .text (by decide +kernel)
    · exact fun child member => List.mem_singleton.mp member ▸ .text (by decide +kernel)

theorem nodeAt?_laidOutParagraph :
    (Node.element laidOutParagraph).LaidOut ∧ laidOutParagraph.name.text ≠ "" ∧
      ((Node.element laidOutParagraph).nodeAt? 24 = none ↔ 24 ∉ laidOutParagraph.inside) ∧
      ∃ hit, (Node.element laidOutParagraph).nodeAt? 19 = some hit ∧
        laidOutParagraph.source.toUTF8.extract (hit.span.start - 3) (hit.span.stop - 3) = hit.source.toUTF8 := by
  have laid := laidOut_laidOutParagraph
  have named : laidOutParagraph.name.text ≠ "" := by decide
  have found : (Node.element laidOutParagraph).nodeAt? 19 = some (.text ⟨19, 20⟩ "x") := rfl
  obtain ⟨_, _, _, _, bytes⟩ := (nodeAt?_of_laidOut laid named 19).2 _ found
  exact ⟨laid, named, (nodeAt?_of_laidOut laid named 24).1, _, found, bytes⟩

end Node
end MarkupTree
