import Mathlib.Logic.Equiv.Basic
import MarkupTree.Proofs.Offset.Nested

/-! Trees whose children stand in another order, at any number of nodes. The search takes the
first child around the offset, so in general the order decides; where spans nest, each node
around the offset is on the way to the hit, and the hit moves along with the children. -/
namespace MarkupTree.Node

/-- The path to the same node after the children have moved, and theirs in turn. -/
def relocate (places : Nat → Nat) (below : Nat → List Nat → List Nat) : List Nat → List Nat
  | [] => []
  | place :: rest => places place :: below place rest

/-- The second tree is the first with the children of each element permuted. The function
takes each path in the first tree to the path of the same node in the second. -/
inductive Reordered : Node → Node → (List Nat → List Nat) → Prop where
  | element {e other : Element} {places : Equiv.Perm Nat} {below : Nat → List Nat → List Nat}
      (span : e.span = other.span) (name : e.name = other.name) (attributes : e.attributes = other.attributes)
      (inside : ∀ place, places place < other.children.length ↔ place < e.children.length)
      (children : ∀ place child twin, e.children[place]? = some child →
        other.children[places place]? = some twin → Reordered child twin (below place)) :
      Reordered (.element e) (.element other) (relocate places below)
  | text (span : Span) (content : String) : Reordered (.text span content) (.text span content) id
  | comment (span : Span) (content : String) : Reordered (.comment span content) (.comment span content) id

namespace Reordered
variable {node other : Node} {move : List Nat → List Nat} {offset : Nat}

theorem span_eq (moved : node.Reordered other move) : node.span = other.span := by
  cases moved with
  | element span => exact span
  | text | comment => rfl

theorem move_nil (moved : node.Reordered other move) : move [] = [] := by
  cases moved <;> rfl

theorem relocate_id : relocate (Equiv.refl Nat) (fun _ => id) = id := by
  funext path
  cases path <;> rfl

/-- Every tree is in its own order. -/
theorem refl (node : Node) : node.Reordered node id := by
  induction node using Node.induction with
  | element e ih =>
    rw [← relocate_id]
    refine .element rfl rfl rfl (fun _ => Iff.rfl) ?_
    intro place child twin here there
    obtain rfl := Option.some.inj (here.symm.trans there)
    exact ih child (List.mem_of_getElem? here)
  | text span content => exact .text span content
  | comment span content => exact .comment span content

/-- One permutation for the children of the node, whatever its kind, and each child with the
child that took its place. -/
theorem exists_places (moved : node.Reordered other move) :
    ∃ (places : Equiv.Perm Nat) (below : Nat → List Nat → List Nat), move = relocate places below ∧
      (∀ place child, node.child? place = some child →
        ∃ twin, other.child? (places place) = some twin ∧ child.Reordered twin (below place)) ∧
      ∀ place twin, other.child? (places place) = some twin →
        ∃ child, node.child? place = some child ∧ child.Reordered twin (below place) := by
  cases moved with
  | @element e other places below _ _ _ inside children =>
    refine ⟨places, below, rfl, ?_, ?_⟩
    · intro place child here
      have within := (inside place).mpr (List.getElem?_eq_some_iff.mp here).1
      have there := List.getElem?_eq_getElem within
      exact ⟨_, there, children place child _ here there⟩
    · intro place twin there
      have within := (inside place).mp (List.getElem?_eq_some_iff.mp there).1
      have here := List.getElem?_eq_getElem within
      exact ⟨_, here, children place _ twin here there⟩
  | text | comment =>
    refine ⟨Equiv.refl Nat, fun _ => id, relocate_id.symm, ?_, ?_⟩
    · exact fun place child here => absurd here (by simp [child?])
    · exact fun place twin there => absurd there (by simp [child?])

/-- The path it moved to leads to the node that a path led to. -/
theorem exists_descendant? {part : Node} {path : List Nat} (moved : node.Reordered other move)
    (found : node.descendant? path = some part) :
    ∃ twin inner, other.descendant? (move path) = some twin ∧ part.Reordered twin inner := by
  induction path generalizing node other move with
  | nil =>
    obtain rfl := Option.some.inj found
    exact ⟨other, move, by rw [moved.move_nil]; rfl, moved⟩
  | cons place rest ih =>
    obtain ⟨places, below, rfl, down, _⟩ := moved.exists_places
    obtain ⟨child, here, found⟩ := descendant?_cons_eq_some_iff.mp found
    obtain ⟨twin, there, same⟩ := down place child here
    obtain ⟨last, inner, reached, ends⟩ := ih same found
    refine ⟨last, inner, ?_, ends⟩
    rw [relocate, descendant?_cons, there, Option.bind_some, reached]

theorem apartAt (moved : node.Reordered other move) (apart : node.ApartAt offset) : other.ApartAt offset := by
  obtain ⟨places, below, _, _, up⟩ := moved.exists_places
  intro first second twin another here there contains also
  obtain ⟨first, rfl⟩ := places.surjective first
  obtain ⟨second, rfl⟩ := places.surjective second
  obtain ⟨child, at_first, same⟩ := up first twin here
  obtain ⟨sibling, at_second, alike⟩ := up second another there
  rw [← same.span_eq] at contains
  rw [← alike.span_eq] at also
  rw [apart first second child sibling at_first at_second contains also]

/-- The way to the hit moves along. Siblings have to be apart for this alone, as the first
child around the offset could otherwise be another one after the move. -/
theorem pathAt?_eq (moved : node.Reordered other move) (nested : node.NestedAt offset) :
    other.pathAt? offset = (node.pathAt? offset).map move := by
  induction node using Node.childrenInduction generalizing other move with
  | step node ih =>
    have apart : node.ApartAt offset := nested.apart [] node rfl
    have otherApart := moved.apartAt apart
    obtain ⟨places, below, rfl, down, up⟩ := moved.exists_places
    cases path : node.pathAt? offset with
    | none =>
      rw [Option.map_none, pathAt?_eq_none_iff, nodeAt?_eq_none_iff]
      rw [pathAt?_eq_none_iff, nodeAt?_eq_none_iff] at path
      intro twin member contains
      obtain ⟨place, there⟩ := List.mem_iff_getElem?.mp member
      obtain ⟨place, rfl⟩ := places.surjective place
      obtain ⟨child, here, same⟩ := up place twin there
      rw [← same.span_eq] at contains
      exact path child (mem_children_of_child? here) contains
    | some way =>
      obtain ⟨place, child, here, contains, _, rfl⟩ := pathAt?_eq_some_iff.mp path
      obtain ⟨twin, there, same⟩ := down place child here
      have contains : offset ∈ twin.span := same.span_eq ▸ contains
      rw [pathAt?_of_apart otherApart there contains,
        ih child (mem_children_of_child? here) same (nested.at_child here).2]
      cases child.pathAt? offset with
      | none => simp [relocate, same.move_nil]
      | some rest => simp [relocate]

end Reordered

/-- Spans nest from the node down, at every offset. -/
def WellNested (node : Node) : Prop := ∀ offset, node.NestedAt offset

/-- In a well-nested tree the nodes around an offset are those on the way to the hit, one at
each depth, and in any order of children the hit is the same node. -/
theorem nodeAt?_of_wellNested {node : Node} (nested : node.WellNested) (offset : Nat) :
    (node.nodeAt? offset = none ↔ ∀ path, ¬ node.Around offset path) ∧
    (∀ hit, node.nodeAt? offset = some hit → ∃ way,
      node.pathAt? offset = some way ∧ node.descendant? way = some hit ∧ node.Around offset way ∧
      (∀ path, node.Around offset path ↔ path ≠ [] ∧ path <+: way) ∧
      ∀ path, node.Around offset path → path.length ≤ way.length ∧ (path.length = way.length → path = way)) ∧
    (∀ path other, node.Around offset path → node.Around offset other →
      path.length = other.length → path = other) ∧
    ∀ other move, node.Reordered other move →
      other.pathAt? offset = (node.pathAt? offset).map move ∧
      (node.nodeAt? offset = none → other.nodeAt? offset = none) ∧
      ∀ hit, node.nodeAt? offset = some hit → ∃ twin inner,
        other.nodeAt? offset = some twin ∧ hit.Reordered twin inner := by
  have nested := nested offset
  have onWay {path : List Nat} (around : node.Around offset path) :=
    (nested.around_iff.mp around).2
  refine ⟨nested.hitsDeepest.none_iff, ?_, ?_, ?_⟩
  · intro hit found
    obtain ⟨way, path, leads, last, _⟩ := exists_path_of_nodeAt? found
    refine ⟨way, path, leads, last, fun _ => by rw [nested.around_iff, path, Option.getD_some], ?_⟩
    intro other around
    have within := onWay around
    rw [path, Option.getD_some] at within
    exact ⟨within.length_le, within.eq_of_length⟩
  · intro path other around also sameDepth
    have within := List.prefix_of_prefix_length_le (onWay around) (onWay also) (Nat.le_of_eq sameDepth)
    exact within.eq_of_length sameDepth
  · intro other move moved
    have ways := moved.pathAt?_eq nested
    refine ⟨ways, ?_, ?_⟩
    · intro noHit
      rw [pathAt?_eq_none_iff.mpr noHit, Option.map_none] at ways
      exact pathAt?_eq_none_iff.mp ways
    · intro hit found
      obtain ⟨way, path, leads, _, _⟩ := exists_path_of_nodeAt? found
      obtain ⟨twin, inner, reached, same⟩ := moved.exists_descendant? leads
      refine ⟨twin, inner, ?_, same⟩
      rw [nodeAt?_eq_descendant?, ways, path, Option.map_some, Option.bind_some, reached]

/-- An item from the offset on, `<li>a</li>`. -/
def item (start : Nat) : Node :=
  .element ⟨⟨start, start + 10⟩, ⟨"li", ⟨start, start + 4⟩⟩, ∅, [.text ⟨start + 4, start + 5⟩ "a"]⟩

/-- A list of two items, in either order. -/
def twoItems (first second : Nat) : Node :=
  .element ⟨⟨0, 29⟩, ⟨"ul", ⟨0, 4⟩⟩, ∅, [item first, item second]⟩

theorem wellNested_twoItems : (twoItems 4 14).WellNested := by
  intro offset
  have leaf (span : Span) : (Node.text span "a").NestedAt offset := by
    rw [nestedAt_iff, apartAt_iff_pairwise]
    simp
  have nested (start : Nat) : (item start).HoldsAt offset ∧ (item start).NestedAt offset := by
    rw [nestedAt_iff, apartAt_iff_pairwise]
    simp only [item, HoldsAt, children_element, List.forall_mem_singleton, List.pairwise_singleton, leaf,
      span_element, span_text, children_text, Span.mem_iff, List.not_mem_nil, false_implies, implies_true,
      and_true]
    omega
  rw [nestedAt_iff, apartAt_iff_pairwise]
  constructor
  · simp only [twoItems, item, children_element, List.pairwise_cons, List.forall_mem_singleton, span_element,
      Span.mem_iff, List.not_mem_nil, false_implies, implies_true, List.Pairwise.nil, and_true]
    omega
  · simp only [twoItems, children_element, List.forall_mem_cons, nested, List.not_mem_nil, false_implies,
      implies_true, and_true]

theorem reordered_twoItems :
    (twoItems 4 14).Reordered (twoItems 14 4) (relocate (Equiv.swap 0 1) fun _ => id) := by
  refine .element rfl rfl rfl ?_ ?_
  · intro place
    match place with
    | 0 | 1 => decide
    | place + 2 =>
      have stays : Equiv.swap 0 1 (place + 2) = place + 2 := Equiv.swap_apply_of_ne_of_ne (by omega) (by omega)
      rw [stays]
      rfl
  · intro place child twin here there
    match place with
    | 0 | 1 =>
      obtain rfl := Option.some.inj (here.symm.trans there)
      exact Reordered.refl _
    | place + 2 => contradiction

theorem nodeAt?_twoItems :
    (twoItems 4 14).WellNested ∧
      (∀ path, (twoItems 4 14).Around 8 path ↔ path ≠ [] ∧ path <+: [0, 0]) ∧
      (twoItems 14 4).pathAt? 8 = some [1, 0] := by
  have nested := wellNested_twoItems
  have found : (twoItems 4 14).nodeAt? 8 = some (.text ⟨8, 9⟩ "a") := rfl
  have path : (twoItems 4 14).pathAt? 8 = some [0, 0] := rfl
  obtain ⟨_, onWay, _, moves⟩ := nodeAt?_of_wellNested nested 8
  obtain ⟨way, same, _, _, around, _⟩ := onWay _ found
  obtain rfl : [0, 0] = way := Option.some.inj (path.symm.trans same)
  exact ⟨nested, around, (moves _ _ reordered_twoItems).1⟩

end MarkupTree.Node
