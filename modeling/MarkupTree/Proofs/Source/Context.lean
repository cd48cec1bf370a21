import MarkupTree.Proofs.Node.Replace
import MarkupTree.Proofs.Source.Visible

/-! The source of a tree around one of its nodes. Where no node above is nameless, the source
of the node stands between two texts that do not depend on it; otherwise it does not show, and
the whole reads the same whatever stands there. -/
namespace MarkupTree

/-- Only what stands between the tags changes with the children. -/
theorem Element.source_withChildren (e : Element) (forest : List Node) :
    Element.source { e with children := forest } =
      if e.name.text.isEmpty then "" else e.openingTag ++ Node.forestSource forest ++ e.closingTag := rfl

namespace Node

/-- What is written in front of the end of the path. -/
def sourceBefore : Node → List Nat → String
  | _, [] => ""
  | .element e, place :: rest =>
    e.openingTag ++ forestSource (e.children.take place) ++
      (e.children[place]?).elim "" fun child => child.sourceBefore rest
  | .text .., _ :: _ | .comment .., _ :: _ => ""

/-- What is written behind the end of the path. -/
def sourceAfter : Node → List Nat → String
  | _, [] => ""
  | .element e, place :: rest =>
    ((e.children[place]?).elim "" fun child => child.sourceAfter rest) ++
      forestSource (e.children.drop (place + 1)) ++ e.closingTag
  | .text .., _ :: _ | .comment .., _ :: _ => ""

variable {node old : Node} {path : List Nat}

@[simp] theorem sourceBefore_nil (node : Node) : node.sourceBefore [] = "" := by
  cases node <;> rfl

@[simp] theorem sourceAfter_nil (node : Node) : node.sourceAfter [] = "" := by
  cases node <;> rfl

theorem forestSource_modify {forest : List Node} {place : Nat} {child : Node}
    (here : forest[place]? = some child) (change : Node → Node) :
    forestSource (forest.modify place change) =
      forestSource (forest.take place) ++ (change child).source ++ forestSource (forest.drop (place + 1)) := by
  rw [modify_of_getElem? here, forestSource_append, forestSource_cons, String.append_assoc]

theorem source_replaceAt_cons {e : Element} {place : Nat} {child : Node} (named : e.name.text ≠ "")
    (here : e.children[place]? = some child) (rest : List Nat) (part : Node) :
    ((Node.element e).replaceAt (place :: rest) part).source =
      e.openingTag ++ forestSource (e.children.take place) ++ (child.replaceAt rest part).source ++
        forestSource (e.children.drop (place + 1)) ++ e.closingTag := by
  rw [replaceAt_element_cons, source_element, Element.source_withChildren,
    if_neg (mt String.isEmpty_iff.mp named), forestSource_modify here]
  simp only [String.append_assoc]

theorem source_replaceAt_of_shown (found : node.descendant? path = some old) (shown : ¬ node.Hidden path)
    (part : Node) :
    (node.replaceAt path part).source = node.sourceBefore path ++ part.source ++ node.sourceAfter path := by
  induction path generalizing node with
  | nil => simp
  | cons place rest ih =>
    obtain ⟨child, here, below⟩ := descendant?_cons_eq_some_iff.mp found
    rw [hidden_cons_iff, not_or] at shown
    cases node with
    | element e =>
      have named : e.name.text ≠ "" := by simpa using shown.1
      have here : e.children[place]? = some child := here
      have inner := ih below fun hidden => shown.2 ⟨child, here, hidden⟩
      rw [source_replaceAt_cons named here, inner, sourceBefore, sourceAfter, here]
      simp only [Option.elim_some, String.append_assoc]
    | text | comment => exact absurd here (by simp [child?])

theorem source_replaceAt_of_hidden (hidden : node.Hidden path) (part : Node) :
    (node.replaceAt path part).source = node.source := by
  induction path generalizing node with
  | nil => exact absurd hidden node.not_hidden_nil
  | cons place rest ih =>
    cases node with
    | element e =>
      rw [replaceAt_element_cons, source_element, source_element, Element.source_withChildren]
      rcases hidden_cons_iff.mp hidden with nameless | ⟨child, here, below⟩
      · rw [isNameless_element] at nameless
        rw [if_pos nameless, Element.source_of_nameless (String.isEmpty_iff.mp nameless)]
      · have here : e.children[place]? = some child := here
        have unchanged := forestSource_modify here id
        rw [List.modify_id, id_eq] at unchanged
        rw [forestSource_modify here, ih below, Element.source_eq, unchanged]
    | text | comment => rfl

/-- The texts around a node stay the same when the node is replaced. -/
theorem sourceBefore_replaceAt (node : Node) (path : List Nat) (part : Node) :
    (node.replaceAt path part).sourceBefore path = node.sourceBefore path := by
  induction path generalizing node with
  | nil => simp
  | cons place rest ih =>
    cases node with
    | element e =>
      have front : (e.children.modify place fun child => child.replaceAt rest part).take place =
          e.children.take place := by
        rw [List.take_modify, List.modify_eq_self (List.length_take_le _ _)]
      rw [replaceAt_element_cons, sourceBefore, sourceBefore]
      rw [front, List.getElem?_modify_eq]
      cases e.children[place]? with
      | none => rfl
      | some child => exact congrArg _ (ih child)
    | text | comment => rfl

theorem sourceAfter_replaceAt (node : Node) (path : List Nat) (part : Node) :
    (node.replaceAt path part).sourceAfter path = node.sourceAfter path := by
  induction path generalizing node with
  | nil => simp
  | cons place rest ih =>
    cases node with
    | element e =>
      rw [replaceAt_element_cons, sourceAfter, sourceAfter]
      rw [List.drop_modify_of_lt _ _ _ _ (Nat.lt_succ_self place), List.getElem?_modify_eq]
      cases e.children[place]? with
      | none => rfl
      | some child => exact congrArg (· ++ forestSource (e.children.drop (place + 1)) ++ e.closingTag) (ih child)
    | text | comment => rfl

/-- A node is written between two texts that only the rest of the tree determines, unless a
nameless node above it hides it and all that could stand in its place. -/
theorem source_replaceAt (found : node.descendant? path = some old) :
    node.replaceAt path old = node ∧
    (∀ part, (node.replaceAt path part).descendant? path = some part ∧
      (node.replaceAt path part).sourceBefore path = node.sourceBefore path ∧
      (node.replaceAt path part).sourceAfter path = node.sourceAfter path) ∧
    (¬ node.Hidden path → ∀ part, (node.replaceAt path part).source =
      node.sourceBefore path ++ part.source ++ node.sourceAfter path) ∧
    (node.Hidden path → ∀ part, (node.replaceAt path part).source = node.source) := by
  refine ⟨replaceAt_self found, ?_, source_replaceAt_of_shown found, source_replaceAt_of_hidden⟩
  intro part
  exact ⟨descendant?_replaceAt found part, sourceBefore_replaceAt node path part,
    sourceAfter_replaceAt node path part⟩

/-- `<p>kept</p>`, with a nameless element around a text that does not show. -/
def brokenParagraph : Node :=
  .element ⟨⟨0, 16⟩, ⟨"p", ⟨0, 3⟩⟩, ∅,
    [.element ⟨⟨3, 8⟩, ⟨"", ⟨3, 4⟩⟩, ∅, [.text ⟨4, 8⟩ "gone"]⟩, .text ⟨8, 12⟩ "kept"]⟩

theorem source_replaceAt_brokenParagraph :
    brokenParagraph.descendant? [1] = some (.text ⟨8, 12⟩ "kept") ∧
      brokenParagraph.descendant? [0, 0] = some (.text ⟨4, 8⟩ "gone") ∧
      ∀ part, (brokenParagraph.replaceAt [1] part).source = "<p>" ++ part.source ++ "</p>" ∧
        (brokenParagraph.replaceAt [0, 0] part).source = "<p>kept</p>" := by
  have kept : brokenParagraph.descendant? [1] = some (.text ⟨8, 12⟩ "kept") := rfl
  have gone : brokenParagraph.descendant? [0, 0] = some (.text ⟨4, 8⟩ "gone") := rfl
  have shown : ¬ brokenParagraph.Hidden [1] := by
    rw [hidden_cons_iff]
    rintro (nameless | ⟨child, _, hidden⟩)
    · contradiction
    · exact child.not_hidden_nil hidden
  have hidden : brokenParagraph.Hidden [0, 0] :=
    hidden_cons_iff.mpr (.inr ⟨_, rfl, hidden_cons_iff.mpr (.inl rfl)⟩)
  have before : brokenParagraph.sourceBefore [1] = "<p>" := by decide +kernel
  have after : brokenParagraph.sourceAfter [1] = "</p>" := by decide +kernel
  have source : brokenParagraph.source = "<p>kept</p>" := by decide +kernel
  refine ⟨kept, gone, ?_⟩
  intro part
  constructor
  · rw [(source_replaceAt kept).2.2.1 shown, before, after]
  · rw [(source_replaceAt gone).2.2.2 hidden, source]

end Node
end MarkupTree
