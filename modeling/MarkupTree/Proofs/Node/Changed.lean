import MarkupTree.Node.Build
import MarkupTree.Proofs.Node.Equality
import MarkupTree.Proofs.Source.Context

/-! Changes in a tree and its equality. Trees that differ at most below one path are equal as far as
the nodes at its end are. So equality notices a write to the attributes of an element at any depth,
also where the source does not show it, unless the value was there before. -/
namespace MarkupTree

/-- A write is seen by a reader of its key, and by no other. -/
theorem Attributes.beq_insert_iff {attributes : Attributes} {key value : String} :
    (attributes == attributes.insert key value) = true ↔ attributes.get? key = some value := by
  rw [beq_iff_forall_get?]
  constructor
  · intro unchanged
    rw [unchanged key, get?_insert_self]
  · intro stands other
    rw [get?_insert]
    split
    · rename_i same
      rw [same, stands]
    · rfl

namespace Node
variable {node old : Node} {path : List Nat}

theorem element_beq_withChildren_iff (e : Element) (forest others : List Node) :
    (Node.element { e with children := forest } == Node.element { e with children := others }) = true ↔
      List.Forall₂ (fun child twin : Node => (child == twin) = true) forest others := by
  rw [element_beq_element, Element.beq_iff]
  simp

/-- The span, the name and the children are the same, so the attributes decide. -/
theorem element_beq_set_iff (e : Element) (key value : String) :
    (Node.element e == Node.element (e.set key value).value) = true ↔ e.attribute? key = some value := by
  rw [element_beq_element, Element.beq_iff, Element.value_set, ← Attributes.beq_iff_perm,
    Attributes.beq_insert_iff]
  have children : List.Forall₂ (fun child twin : Node => (child == twin) = true) e.children e.children :=
    List.forall₂_same.mpr fun _ _ => BEq.rfl
  exact ⟨fun changed => changed.2.2.1, fun stands => ⟨rfl, rfl, stands, children⟩⟩

/-- One step up: all siblings and all else in the parent are the same. -/
theorem replaceAt_cons_beq_iff {place : Nat} {child : Node} (here : node.child? place = some child)
    (rest : List Nat) (part other : Node) :
    (node.replaceAt (place :: rest) part == node.replaceAt (place :: rest) other) = true ↔
      (child.replaceAt rest part == child.replaceAt rest other) = true := by
  cases node with
  | element e =>
    have here : e.children[place]? = some child := here
    rw [replaceAt_element_cons, replaceAt_element_cons, element_beq_withChildren_iff,
      modify_of_getElem? here, modify_of_getElem? here]
    exact forall₂_around_iff (fun _ => BEq.rfl) _ _
  | text | comment => exact absurd here (by simp [child?])

/-- Step by step down the path, equality comes down to what stands at its end. -/
theorem replaceAt_beq_replaceAt_iff (found : node.descendant? path = some old) (part other : Node) :
    (node.replaceAt path part == node.replaceAt path other) = true ↔ (part == other) = true := by
  induction path generalizing node with
  | nil => rw [replaceAt_nil, replaceAt_nil]
  | cons place rest ih =>
    obtain ⟨child, here, below⟩ := descendant?_cons_eq_some_iff.mp found
    rw [replaceAt_cons_beq_iff here, ih below]

theorem beq_replaceAt_iff (found : node.descendant? path = some old) (part : Node) :
    (node == node.replaceAt path part) = true ↔ (old == part) = true := by
  have detected := replaceAt_beq_replaceAt_iff found old part
  rwa [replaceAt_self found] at detected

/-- Trees that are the same but for what stands at one path are equal if and only if what stands
there is. So a write to an element anywhere in a tree leaves the tree equal to itself if and only if
the element had the value already, and that is so for elements that the source does not show. -/
theorem beq_detects_changes (found : node.descendant? path = some old) :
    (∀ part other, (node.replaceAt path part == node.replaceAt path other) = true ↔ (part == other) = true) ∧
    (∀ part, (node == node.replaceAt path part) = true ↔ (old == part) = true) ∧
    ∀ e key value, old = .element e →
      ((node == node.replaceAt path (.element (e.set key value).value)) = true ↔
        e.attribute? key = some value) ∧
      (node.Hidden path → (node.replaceAt path (.element (e.set key value).value)).source = node.source) := by
  refine ⟨replaceAt_beq_replaceAt_iff found, beq_replaceAt_iff found, ?_⟩
  rintro e key value rfl
  constructor
  · rw [beq_replaceAt_iff found, element_beq_set_iff]
  · intro hidden
    exact source_replaceAt_of_hidden hidden _

/-- `<b id="x">unseen</b>` -/
def bold : Element := ⟨⟨4, 26⟩, ⟨"b", ⟨4, 14⟩⟩, .ofList [("id", "x")], [.text ⟨14, 20⟩ "unseen"]⟩

/-- A paragraph around a nameless element, and in that the bold text. -/
def hiddenBold : Node :=
  .element ⟨⟨0, 30⟩, ⟨"p", ⟨0, 3⟩⟩, ∅, [.element ⟨⟨3, 26⟩, ⟨"", ⟨3, 4⟩⟩, ∅, [.element bold]⟩]⟩

theorem beq_detects_changes_of_hiddenBold :
    let written (key value : String) := hiddenBold.replaceAt [0, 0] (.element (bold.set key value).value)
    hiddenBold.descendant? [0, 0] = some (.element bold) ∧
      (hiddenBold == written "id" "x") = true ∧
      (¬ (hiddenBold == written "id" "y") = true ∧ (written "id" "y").source = "<p></p>") ∧
      ¬ (hiddenBold == written "class" "x") = true := by
  intro written
  have found : hiddenBold.descendant? [0, 0] = some (.element bold) := rfl
  have hidden : hiddenBold.Hidden [0, 0] := hidden_cons_iff.mpr (.inr ⟨_, rfl, hidden_cons_iff.mpr (.inl rfl)⟩)
  have source : hiddenBold.source = "<p></p>" := by decide +kernel
  obtain ⟨_, _, writes⟩ := beq_detects_changes found
  have detected (key value : String) := writes bold key value rfl
  refine ⟨found, ?_, ⟨?_, ?_⟩, ?_⟩
  · exact (detected "id" "x").1.mpr rfl
  · rw [(detected "id" "y").1]
    decide
  · rw [(detected "id" "y").2 hidden, source]
  · rw [(detected "class" "x").1]
    decide

end Node
end MarkupTree
