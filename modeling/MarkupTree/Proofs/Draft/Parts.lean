import Mathlib.Data.List.Basic
import MarkupTree.Node.Build
import MarkupTree.Proofs.Attributes.History

/-! Drafts and trees part by part. A tree is built from the leaves up; its parts are listed in
that order here, for the recipe as for the tree, so that what holds of a whole construction
comes down to what each part adds to it. -/
namespace MarkupTree

/-- What holds of texts, comments and nodes taken over, and of an element whenever it holds of
its children, holds of every draft. -/
theorem Draft.induction {P : Draft → Prop}
    (text : ∀ content start stop, P (.text content start stop))
    (comment : ∀ content start stop, P (.comment content start stop))
    (element : ∀ token start stop children writes, (∀ child ∈ children, P child) →
      P (.element token start stop children writes))
    (existing : ∀ node, P (.existing node)) : ∀ draft, P draft
  | .text content start stop => text content start stop
  | .comment content start stop => comment content start stop
  | .element token start stop children writes =>
    element token start stop children writes fun child (_ : child ∈ children) =>
      Draft.induction text comment element existing child
  | .existing node => existing node

namespace Draft

theorem value_buildAll (drafts : List Draft) : (buildAll drafts).value = drafts.map (·.build.value) := by
  induction drafts with
  | nil => rfl
  | cons first rest ih => exact congrArg (first.build.value :: ·) ih

theorem events_buildAll (drafts : List Draft) : (buildAll drafts).events = drafts.flatMap (·.build.events) := by
  induction drafts with
  | nil => rfl
  | cons first rest ih => simp [buildAll, ih]

section Element
variable (token : Tag.Token) (start stop : Nat) (children : List Draft) (writes : List (String × String))

theorem value_build_element :
    (element token start stop children writes).build.value =
      .element ⟨.ofOffsets start stop, ⟨Tag.nameOf token.raw, .ofOffsets token.start token.stop⟩,
        .ofList writes, children.map (·.build.value)⟩ := by
  simp only [build, Logged.value_bind, Logged.value_pure, Element.value_setAll, Element.value_build,
    value_buildAll]
  rfl

/-- The children come first, then the tag, the two spans and the attributes. -/
theorem events_build_element :
    (element token start stop children writes).build.events =
      children.flatMap (·.build.events) ++
        ((if Tag.nameOf token.raw = "" then [.namelessTag token.raw token.start token.stop] else []) ++
          (if stop < start then [.clampedSpan start stop] else []) ++
          (if token.stop < token.start then [.clampedSpan token.start token.stop] else []) ++
          (Attributes.rewrittenKeys [] writes).map (.overwrittenAttribute (Tag.nameOf token.raw))) := by
  simp only [build, Logged.events_bind, Logged.events_pure, events_buildAll, Element.events_build,
    Element.value_build, Element.events_setAll, Span.events_clamp, String.isEmpty_iff, List.append_nil,
    List.append_assoc]
  rfl

end Element

mutual

/-- The draft and all drafts in it, each behind those below it. -/
def parts : Draft → List Draft
  | .text content start stop => [.text content start stop]
  | .comment content start stop => [.comment content start stop]
  | .element token start stop children writes =>
    partsAll children ++ [.element token start stop children writes]
  | .existing node => [.existing node]

def partsAll : List Draft → List Draft
  | [] => []
  | first :: rest => first.parts ++ partsAll rest

end

theorem partsAll_eq_flatMap (drafts : List Draft) : partsAll drafts = drafts.flatMap parts := by
  induction drafts with
  | nil => rfl
  | cons first rest ih => rw [partsAll, ih, List.flatMap_cons]

theorem parts_element (token : Tag.Token) (start stop : Nat) (children : List Draft)
    (writes : List (String × String)) :
    (element token start stop children writes).parts =
      children.flatMap parts ++ [.element token start stop children writes] := by
  rw [parts, partsAll_eq_flatMap]

/-- All of the tree is built here; no part of it is a node that was there before. -/
def FromScratch (draft : Draft) : Prop := ∀ node, .existing node ∉ draft.parts

theorem not_fromScratch_existing (node : Node) : ¬ (existing node).FromScratch := by
  intro fresh
  exact fresh node (by simp [parts])

theorem FromScratch.child {token : Tag.Token} {start stop : Nat} {children : List Draft}
    {writes : List (String × String)} (fresh : (element token start stop children writes).FromScratch)
    {child : Draft} (member : child ∈ children) : child.FromScratch := by
  intro node inside
  refine fresh node ?_
  rw [parts_element]
  exact List.mem_append_left _ (List.mem_flatMap.mpr ⟨child, member, inside⟩)

end Draft

namespace Node

mutual

/-- The node and all nodes below it, each behind those below it. -/
def parts : Node → List Node
  | .element ⟨span, name, attributes, children⟩ =>
    forestParts children ++ [.element ⟨span, name, attributes, children⟩]
  | .text span content => [.text span content]
  | .comment span content => [.comment span content]

def forestParts : List Node → List Node
  | [] => []
  | first :: rest => first.parts ++ forestParts rest

end

theorem forestParts_eq_flatMap (forest : List Node) : forestParts forest = forest.flatMap parts := by
  induction forest with
  | nil => rfl
  | cons first rest ih => rw [forestParts, ih, List.flatMap_cons]

theorem parts_eq (node : Node) : node.parts = node.children.flatMap parts ++ [node] := by
  cases node with
  | element e =>
    cases e
    rw [parts, forestParts_eq_flatMap]
    rfl
  | text | comment => rfl

/-- The parts are what paths lead to. -/
theorem mem_parts_iff {node part : Node} : part ∈ node.parts ↔ ∃ path, node.descendant? path = some part := by
  induction node using Node.childrenInduction with
  | step node ih =>
    rw [parts_eq, List.mem_append, List.mem_flatMap, List.mem_singleton]
    constructor
    · rintro (⟨child, member, below⟩ | rfl)
      · obtain ⟨place, here⟩ := List.mem_iff_getElem?.mp member
        obtain ⟨path, found⟩ := (ih child member).mp below
        exact ⟨place :: path, descendant?_cons_eq_some_iff.mpr ⟨child, here, found⟩⟩
      · exact ⟨[], rfl⟩
    · rintro ⟨_ | ⟨place, path⟩, found⟩
      · exact .inr (Option.some.inj found).symm
      · obtain ⟨child, here, found⟩ := descendant?_cons_eq_some_iff.mp found
        have member := mem_children_of_child? here
        exact .inl ⟨child, member, (ih child member).mpr ⟨path, found⟩⟩

end Node

/-- Part by part, the tree is what was built. A node taken over would bring parts that no part of
the draft stands for. -/
theorem Draft.parts_value_build {draft : Draft} (fresh : draft.FromScratch) :
    draft.build.value.parts = draft.parts.map (·.build.value) := by
  induction draft using Draft.induction with
  | text | comment => rfl
  | element token start stop children writes ih =>
    have forests : (children.map (·.build.value)).flatMap Node.parts =
        children.flatMap fun child => child.parts.map (·.build.value) := by
      rw [List.flatMap_map]
      exact List.flatMap_congr fun child member => ih child member (fresh.child member)
    rw [parts_element, List.map_append, List.map_flatMap, Node.parts_eq]
    rw [value_build_element, Node.children_element, forests, List.map_singleton, value_build_element]
  | existing node => exact absurd fresh (not_fromScratch_existing node)

end MarkupTree
