import MarkupTree.Node.Build
import MarkupTree.Proofs.Offset.Nested

/-! Whether a hit is the deepest node around the offset. The search never turns back and never
looks below a child that does not contain the offset, so on some trees it is not; on those,
two siblings share the offset or a child contains it that its parent does not. -/
namespace MarkupTree.Node

/-- Two children of one node contain the offset. -/
def Overlaps (node : Node) (offset : Nat) : Prop :=
  ∃ path part place other child twin, node.descendant? path = some part ∧ place ≠ other ∧
    part.child? place = some child ∧ part.child? other = some twin ∧
    offset ∈ child.span ∧ offset ∈ twin.span

/-- A child contains the offset and its parent does not. The span of the first node does not
count, as the search does not look at it. -/
def Escapes (node : Node) (offset : Nat) : Prop :=
  ∃ path part child, path ≠ [] ∧ node.descendant? path = some part ∧ child ∈ part.children ∧
    offset ∈ child.span ∧ offset ∉ part.span

variable {node : Node} {offset : Nat}

theorem nestedAt_of_not_tangled (apart : ¬ node.Overlaps offset) (inside : ¬ node.Escapes offset) :
    node.NestedAt offset := by
  constructor
  · intro path part found place other child twin here there contains also
    apply Decidable.byContradiction
    intro different
    exact apart ⟨path, part, place, other, child, twin, found, different, here, there, contains, also⟩
  · intro path part below found child member contains
    apply Decidable.byContradiction
    intro outside
    exact inside ⟨path, part, child, below, found, member, contains, outside⟩

/-- A hit is below the node, contains the offset and has no child that does. It is the deepest
such node, and there is one wherever there can be, unless spans are tangled at the offset. -/
theorem hitsDeepest_or_tangled (node : Node) (offset : Nat) :
    (∀ hit, node.nodeAt? offset = some hit → ∃ way, node.pathAt? offset = some way ∧
      node.descendant? way = some hit ∧ node.Around offset way ∧ ∀ child ∈ hit.children, offset ∉ child.span) ∧
    (node.HitsDeepest offset ∨ node.Overlaps offset ∨ node.Escapes offset) := by
  constructor
  · intro hit found
    obtain ⟨way, path, leads, around, last⟩ := exists_path_of_nodeAt? found
    exact ⟨way, path, leads, around, nodeAt?_eq_none_iff.mp last⟩
  · by_cases overlapping : node.Overlaps offset
    · exact .inr (.inl overlapping)
    by_cases escaping : node.Escapes offset
    · exact .inr (.inr escaping)
    exact .inl (nestedAt_of_not_tangled overlapping escaping).hitsDeepest

/-- A text and a bold element over the same offsets, side by side. -/
def overlappingSiblings : Node :=
  (Draft.element ⟨"<p>", 0, 3⟩ 0 20
    [.text "ab" 5 9, .element ⟨"<b>", 6, 9⟩ 6 14 [.text "x" 8 10] []] []).build.value

/-- A bold element whose offsets came in inverted, around a text behind it. -/
def clampedParent : Node :=
  (Draft.element ⟨"<p>", 0, 3⟩ 0 20 [.element ⟨"<b>", 6, 9⟩ 6 4 [.text "x" 8 10] []] []).build.value

/-- Trees that are built like any other need not be searched to the deepest node: the first
has a deeper one behind the sibling that is hit, the second one that is not found at all. -/
theorem not_hitsDeepest_of_built :
    ¬ overlappingSiblings.HitsDeepest 8 ∧ ¬ clampedParent.HitsDeepest 8 := by
  constructor
  · intro law
    have found : overlappingSiblings.nodeAt? 8 = some (.text ⟨5, 9⟩ "ab") := rfl
    have path : overlappingSiblings.pathAt? 8 = some [0] := rfl
    have deeper : overlappingSiblings.Around 8 [1, 0] := ⟨by decide, .text ⟨8, 10⟩ "x", rfl, by decide⟩
    obtain ⟨way, same, _, _, longest⟩ := law.deepest _ found
    obtain rfl : [0] = way := Option.some.inj (path.symm.trans same)
    exact absurd (longest [1, 0] deeper) (by decide)
  · intro law
    have noHit : clampedParent.nodeAt? 8 = none := rfl
    have around : clampedParent.Around 8 [0, 0] := ⟨by decide, .text ⟨8, 10⟩ "x", rfl, by decide⟩
    exact law.none_iff.mp noHit [0, 0] around

end MarkupTree.Node
