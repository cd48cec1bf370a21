import Mathlib.Algebra.GroupWithZero.Nat
import Mathlib.Data.List.Nodup
import MarkupTree.Node.Source

/-! What of a tree its source shows. An element without a name is not written, and neither is
anything below it; all other nodes are written once each. So the nameless subtrees can be cut
out, and the length of the source is the sum of what the visible nodes take up themselves. -/
namespace MarkupTree

theorem Element.source_eq_empty_iff {e : Element} : e.source = "" ↔ e.name.text = "" := by
  constructor
  · intro empty
    apply Decidable.byContradiction
    intro named
    rw [source_of_named named] at empty
    simp [openingTag] at empty
  · exact source_of_nameless

namespace Node

/-- The node is an element whose tag had no name. -/
def isNameless : Node → Bool
  | .element e => e.name.text.isEmpty
  | .text .. | .comment .. => false

/-- A node strictly above the end of the path is nameless. -/
def Hidden (node : Node) (path : List Nat) : Prop :=
  ∃ above ancestor, above <+: path ∧ above ≠ path ∧ node.descendant? above = some ancestor ∧
    ancestor.isNameless = true

/-- The path leads to a node that is not nameless, and no node above it is. -/
def Visible (node : Node) (path : List Nat) : Prop :=
  (∃ part, node.descendant? path = some part ∧ part.isNameless = false) ∧ ¬ node.Hidden path

@[simp] theorem isNameless_element (e : Element) : (Node.element e).isNameless = e.name.text.isEmpty := rfl

theorem source_of_isNameless {node : Node} (nameless : node.isNameless = true) : node.source = "" := by
  cases node with
  | element e =>
    rw [source_element, Element.source_of_nameless (String.isEmpty_iff.mp nameless)]
  | text | comment => contradiction

theorem not_hidden_nil (node : Node) : ¬ node.Hidden [] := by
  rintro ⟨above, _, within, strict, _⟩
  exact strict (List.prefix_nil.mp within)

theorem hidden_cons_iff {node : Node} {place : Nat} {rest : List Nat} :
    node.Hidden (place :: rest) ↔
      node.isNameless = true ∨ ∃ child, node.child? place = some child ∧ child.Hidden rest := by
  constructor
  · rintro ⟨above, ancestor, within, strict, found, nameless⟩
    cases above with
    | nil => exact .inl (Option.some.inj found ▸ nameless)
    | cons first above =>
      obtain ⟨rfl, inner⟩ := List.cons_prefix_cons.mp within
      obtain ⟨child, here, below⟩ := descendant?_cons_eq_some_iff.mp found
      refine .inr ⟨child, here, above, ancestor, inner, ?_, below, nameless⟩
      exact fun same => strict (congrArg (List.cons _) same)
  · rintro (nameless | ⟨child, here, above, ancestor, within, strict, found, nameless⟩)
    · exact ⟨[], node, List.nil_prefix, (List.cons_ne_nil _ _).symm, rfl, nameless⟩
    · refine ⟨place :: above, ancestor, List.cons_prefix_cons.mpr ⟨rfl, within⟩, ?_, ?_, nameless⟩
      · exact fun same => strict (List.tail_eq_of_cons_eq same)
      · exact descendant?_cons_eq_some_iff.mpr ⟨child, here, found⟩

mutual

/-- The tree without the nameless elements below its root. -/
def prune : Node → Node
  | .element ⟨span, name, attributes, children⟩ => .element ⟨span, name, attributes, pruneForest children⟩
  | .text span content => .text span content
  | .comment span content => .comment span content

def pruneForest : List Node → List Node
  | [] => []
  | first :: rest => if first.isNameless then pruneForest rest else first.prune :: pruneForest rest

end

theorem prune_element (e : Element) :
    (Node.element e).prune = .element { e with children := pruneForest e.children } := by
  cases e
  rfl

theorem pruneForest_eq (forest : List Node) :
    pruneForest forest = (forest.filter (!·.isNameless)).map prune := by
  induction forest with
  | nil => rfl
  | cons first rest ih =>
    unfold pruneForest
    cases nameless : first.isNameless <;> simp [nameless, ih]

theorem children_prune (node : Node) :
    node.prune.children = (node.children.filter (!·.isNameless)).map prune := by
  cases node with
  | element e => rw [prune_element, children_element, children_element, pruneForest_eq]
  | text | comment => rfl

theorem isNameless_prune (node : Node) : node.prune.isNameless = node.isNameless := by
  cases node with
  | element e => rw [prune_element, isNameless_element, isNameless_element]
  | text | comment => rfl

/-- What has been cut out is gone at every depth. -/
theorem not_isNameless_of_descendant?_prune {node part : Node} {place : Nat} {rest : List Nat}
    (found : node.prune.descendant? (place :: rest) = some part) : part.isNameless = false := by
  induction rest generalizing node place with
  | nil =>
    obtain ⟨child, here, found⟩ := descendant?_cons_eq_some_iff.mp found
    have member := mem_children_of_child? here
    rw [children_prune] at member
    obtain ⟨kept, named, rfl⟩ := List.mem_map.mp member
    obtain rfl := Option.some.inj found
    simpa [isNameless_prune] using (List.mem_filter.mp named).2
  | cons next rest ih =>
    obtain ⟨child, here, found⟩ := descendant?_cons_eq_some_iff.mp found
    have member := mem_children_of_child? here
    rw [children_prune] at member
    obtain ⟨kept, _, rfl⟩ := List.mem_map.mp member
    exact ih found

theorem forestSource_pruneForest {forest : List Node}
    (same : ∀ node ∈ forest, node.prune.source = node.source) :
    forestSource (pruneForest forest) = forestSource forest := by
  induction forest with
  | nil => rfl
  | cons first rest ih =>
    rw [List.forall_mem_cons] at same
    unfold pruneForest
    cases nameless : first.isNameless with
    | true => simp [ih same.2, source_of_isNameless nameless]
    | false => simp [ih same.2, same.1]

theorem source_prune (node : Node) : node.prune.source = node.source := by
  induction node using Node.induction with
  | element e ih =>
    have forests := forestSource_pruneForest ih
    rw [prune_element, source_element, source_element, Element.source_eq, Element.source_eq]
    simp only [forests]
    rfl
  | text | comment => rfl

/-- The bytes that a node takes up in the source without its children. -/
def ownSize : Node → Nat
  | .element e => 2 * e.name.text.utf8ByteSize + 5 +
      (e.attributes.entries.map fun entry => entry.1.utf8ByteSize + entry.2.utf8ByteSize + 4).sum
  | .text _ content => content.utf8ByteSize
  | .comment _ content => content.utf8ByteSize + 7

/-- What the node at the end of the path takes up. -/
def sizeAt (node : Node) (path : List Nat) : Nat := (node.descendant? path).elim 0 ownSize

theorem sizeAt_cons (node : Node) (place : Nat) (rest : List Nat) :
    node.sizeAt (place :: rest) = (node.children[place]?).elim 0 (·.sizeAt rest) := by
  rw [sizeAt, descendant?_cons, child?]
  cases node.children[place]? <;> rfl

mutual

/-- The paths to the visible nodes, each in front of those below it. -/
def visiblePaths : Node → List (List Nat)
  | .element ⟨_, name, _, children⟩ =>
    if name.text.isEmpty then [] else [] :: (visibleAmong children).map fun way => way.1 :: way.2
  | .text .. | .comment .. => [[]]

/-- The same for neighbours: which of them, and the path from there. -/
def visibleAmong : List Node → List (Nat × List Nat)
  | [] => []
  | first :: rest =>
    first.visiblePaths.map (0, ·) ++ (visibleAmong rest).map fun way => (way.1 + 1, way.2)

end

theorem visiblePaths_of_isNameless {node : Node} (nameless : node.isNameless = true) :
    node.visiblePaths = [] := by
  cases node with
  | element e =>
    cases e
    exact if_pos nameless
  | text | comment => contradiction

theorem visiblePaths_of_named {node : Node} (named : node.isNameless = false) :
    node.visiblePaths = [] :: (visibleAmong node.children).map fun way => way.1 :: way.2 := by
  cases node with
  | element e =>
    cases e
    exact if_neg (by simpa using named)
  | text | comment => rfl

theorem visible_nil_iff {node : Node} : node.Visible [] ↔ node.isNameless = false := by
  constructor
  · rintro ⟨⟨part, found, named⟩, _⟩
    exact Option.some.inj found ▸ named
  · intro named
    exact ⟨⟨node, rfl, named⟩, node.not_hidden_nil⟩

theorem visible_cons_iff {node : Node} {place : Nat} {rest : List Nat} :
    node.Visible (place :: rest) ↔
      node.isNameless = false ∧ ∃ child, node.child? place = some child ∧ child.Visible rest := by
  constructor
  · rintro ⟨⟨part, found, named⟩, shown⟩
    rw [hidden_cons_iff, not_or, Bool.not_eq_true] at shown
    obtain ⟨child, here, below⟩ := descendant?_cons_eq_some_iff.mp found
    exact ⟨shown.1, child, here, ⟨part, below, named⟩, fun hidden => shown.2 ⟨child, here, hidden⟩⟩
  · rintro ⟨written, child, here, ⟨part, below, named⟩, shown⟩
    refine ⟨⟨part, descendant?_cons_eq_some_iff.mpr ⟨child, here, below⟩, named⟩, ?_⟩
    rw [hidden_cons_iff, not_or, Bool.not_eq_true]
    refine ⟨written, ?_⟩
    rintro ⟨other, there, hidden⟩
    obtain rfl := Option.some.inj (here.symm.trans there)
    exact shown hidden

theorem mem_visibleAmong {forest : List Node} {place : Nat} {rest : List Nat} :
    (place, rest) ∈ visibleAmong forest ↔
      ∃ child, forest[place]? = some child ∧ rest ∈ child.visiblePaths := by
  induction forest generalizing place with
  | nil => simp [visibleAmong]
  | cons first forest ih =>
    rw [visibleAmong, List.mem_append]
    cases place with
    | zero => simp
    | succ place => simp [← ih]

theorem mem_visiblePaths {node : Node} {path : List Nat} : path ∈ node.visiblePaths ↔ node.Visible path := by
  induction path generalizing node with
  | nil =>
    rw [visible_nil_iff]
    cases named : node.isNameless with
    | true => simp [visiblePaths_of_isNameless named]
    | false => simp [visiblePaths_of_named named]
  | cons place rest ih =>
    rw [visible_cons_iff]
    cases named : node.isNameless with
    | true => simp [visiblePaths_of_isNameless named]
    | false =>
      have among : place :: rest ∈ node.visiblePaths ↔ (place, rest) ∈ visibleAmong node.children := by
        simp [visiblePaths_of_named named]
      rw [among, mem_visibleAmong]
      simp only [ih, child?, true_and]

theorem nodup_visibleAmong {forest : List Node} (children : ∀ child ∈ forest, child.visiblePaths.Nodup) :
    (visibleAmong forest).Nodup := by
  induction forest with
  | nil => exact List.nodup_nil
  | cons first rest ih =>
    rw [List.forall_mem_cons] at children
    rw [visibleAmong, List.nodup_append]
    refine ⟨?_, ?_, ?_⟩
    · exact children.1.map fun path other same => congrArg Prod.snd same
    · refine (ih children.2).map ?_
      rintro ⟨place, path⟩ ⟨other, path'⟩ same
      obtain ⟨places, rfl⟩ := Prod.mk.inj same
      obtain rfl : place = other := Nat.succ.inj places
      rfl
    · intro way here other there same
      obtain ⟨_, _, rfl⟩ := List.mem_map.mp here
      obtain ⟨_, _, rfl⟩ := List.mem_map.mp there
      exact Nat.zero_ne_add_one _ (congrArg Prod.fst same)

theorem nodup_visiblePaths (node : Node) : node.visiblePaths.Nodup := by
  induction node using Node.childrenInduction with
  | step node ih =>
    cases named : node.isNameless with
    | true =>
      rw [visiblePaths_of_isNameless named]
      exact List.nodup_nil
    | false =>
      rw [visiblePaths_of_named named, List.nodup_cons]
      constructor
      · simp
      · refine (nodup_visibleAmong ih).map ?_
        rintro ⟨place, path⟩ ⟨other, path'⟩ same
        obtain ⟨rfl, rfl⟩ := List.cons.inj same
        rfl

end Node

theorem Attributes.utf8ByteSize_source (attributes : Attributes) :
    attributes.source.utf8ByteSize =
      (attributes.entries.map fun entry => entry.1.utf8ByteSize + entry.2.utf8ByteSize + 4).sum := by
  rw [source]
  induction attributes.entries with
  | nil => rfl
  | cons entry entries ih =>
    rw [sourceOf_cons, String.utf8ByteSize_append, ih, List.map_cons, List.sum_cons]
    simp only [String.utf8ByteSize_append]
    have delimiters : " ".utf8ByteSize = 1 ∧ "=\"".utf8ByteSize = 2 ∧ "\"".utf8ByteSize = 1 := by decide
    omega

namespace Node

/-- A node that is written takes up its own bytes and those of its children. -/
theorem utf8ByteSize_source_of_named {node : Node} (named : node.isNameless = false) :
    node.source.utf8ByteSize = node.ownSize + (forestSource node.children).utf8ByteSize := by
  cases node with
  | element e =>
    have named : e.name.text ≠ "" := by simpa using named
    rw [source_element, Element.source_of_named named, ownSize, children_element, Element.openingTag,
      Element.closingTag, ← Attributes.utf8ByteSize_source]
    simp only [String.utf8ByteSize_append]
    have delimiters : "<".utf8ByteSize = 1 ∧ ">".utf8ByteSize = 1 ∧ "</".utf8ByteSize = 2 := by decide
    omega
  | text => simp [ownSize]
  | comment =>
    simp only [source_comment, ownSize, String.utf8ByteSize_append, children_comment, forestSource_nil]
    have markers : "<!--".utf8ByteSize = 4 ∧ "-->".utf8ByteSize = 3 ∧ "".utf8ByteSize = 0 := by decide
    omega

theorem utf8ByteSize_forestSource {forest : List Node}
    (sizes : ∀ child ∈ forest, child.source.utf8ByteSize = (child.visiblePaths.map child.sizeAt).sum) :
    (forestSource forest).utf8ByteSize =
      ((visibleAmong forest).map fun way => (forest[way.1]?).elim 0 (·.sizeAt way.2)).sum := by
  induction forest with
  | nil => rfl
  | cons first rest ih =>
    rw [List.forall_mem_cons] at sizes
    rw [forestSource_cons, String.utf8ByteSize_append, sizes.1, ih sizes.2, visibleAmong]
    simp only [List.map_append, List.map_map, List.sum_append]
    rfl

/-- Nothing is lost and nothing is written twice: the source is as long as the visible nodes
are, one by one. -/
theorem utf8ByteSize_source (node : Node) :
    node.source.utf8ByteSize = (node.visiblePaths.map node.sizeAt).sum := by
  induction node using Node.childrenInduction with
  | step node ih =>
    cases named : node.isNameless with
    | true => rw [source_of_isNameless named, visiblePaths_of_isNameless named]; rfl
    | false =>
      rw [utf8ByteSize_source_of_named named, visiblePaths_of_named named, utf8ByteSize_forestSource ih,
        List.map_cons, List.sum_cons, List.map_map]
      have below : (fun way : Nat × List Nat => (node.children[way.1]?).elim 0 (·.sizeAt way.2)) =
          node.sizeAt ∘ fun way => way.1 :: way.2 := by
        funext way
        exact (sizeAt_cons node way.1 way.2).symm
      rw [below]
      rfl

/-- The source shows the visible nodes, each once, and no others. Cutting out the nameless
elements leaves it as it is, and a nameless element alone leaves nothing to show. -/
theorem source_shows_visible (node : Node) :
    node.source = node.prune.source ∧
    (∀ path part, path ≠ [] → node.prune.descendant? path = some part → part.isNameless = false) ∧
    (∀ e : Element, (Node.element e).source = "" ↔ e.name.text = "") ∧
    node.visiblePaths.Nodup ∧ (∀ path, path ∈ node.visiblePaths ↔ node.Visible path) ∧
    node.source.utf8ByteSize = (node.visiblePaths.map node.sizeAt).sum := by
  refine ⟨node.source_prune.symm, ?_, ?_, node.nodup_visiblePaths, fun _ => mem_visiblePaths, ?_⟩
  · intro path part below found
    cases path with
    | nil => exact absurd rfl below
    | cons place rest => exact not_isNameless_of_descendant?_prune found
  · intro e
    rw [source_element]
    exact Element.source_eq_empty_iff
  · exact node.utf8ByteSize_source

end Node
end MarkupTree
