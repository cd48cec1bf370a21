import MarkupTree.Node.Offset

/-! The nodes around an offset, and the way the search goes down. The search takes the first
child that contains the offset; where no two children do, and no child does without its
parent, the nodes around the offset are those on the way to the hit, and no others. -/
namespace MarkupTree.Node

/-- The path leads below the node, to one whose span contains the offset. -/
def Around (node : Node) (offset : Nat) (path : List Nat) : Prop :=
  path ≠ [] ∧ ∃ part, node.descendant? path = some part ∧ offset ∈ part.span

/-- At most one child contains the offset. -/
def ApartAt (node : Node) (offset : Nat) : Prop :=
  ∀ place other child twin, node.child? place = some child → node.child? other = some twin →
    offset ∈ child.span → offset ∈ twin.span → place = other

/-- The node contains the offset if one of its children does. -/
def HoldsAt (node : Node) (offset : Nat) : Prop :=
  ∀ child ∈ node.children, offset ∈ child.span → offset ∈ node.span

/-- Spans nest at the offset, from the node down. The span of the node itself may be any, as
the search does not look at it. -/
structure NestedAt (node : Node) (offset : Nat) : Prop where
  apart : ∀ path part, node.descendant? path = some part → part.ApartAt offset
  holds : ∀ path part, path ≠ [] → node.descendant? path = some part → part.HoldsAt offset

variable {node child : Node} {offset place : Nat} {path : List Nat}

theorem around_cons_iff {rest : List Nat} :
    node.Around offset (place :: rest) ↔
      ∃ child, node.child? place = some child ∧
        (rest = [] ∧ offset ∈ child.span ∨ child.Around offset rest) := by
  constructor
  · rintro ⟨_, part, found, contains⟩
    obtain ⟨child, here, below⟩ := descendant?_cons_eq_some_iff.mp found
    refine ⟨child, here, ?_⟩
    cases rest with
    | nil =>
      obtain rfl := Option.some.inj below
      exact .inl ⟨rfl, contains⟩
    | cons next rest => exact .inr ⟨List.cons_ne_nil next rest, part, below, contains⟩
  · rintro ⟨child, here, ⟨rfl, contains⟩ | ⟨_, part, below, contains⟩⟩
    · exact ⟨List.cons_ne_nil _ _, child, descendant?_cons_eq_some_iff.mpr ⟨child, here, rfl⟩, contains⟩
    · exact ⟨List.cons_ne_nil _ _, part, descendant?_cons_eq_some_iff.mpr ⟨child, here, below⟩, contains⟩

/-- Where the hit is. The search ends there, so no child of the hit contains the offset. -/
theorem exists_path_of_nodeAt? {hit : Node} (found : node.nodeAt? offset = some hit) :
    ∃ way, node.pathAt? offset = some way ∧ node.descendant? way = some hit ∧
      node.Around offset way ∧ hit.nodeAt? offset = none := by
  induction node using Node.childrenInduction generalizing hit with
  | step node ih =>
    cases path : node.pathAt? offset with
    | none =>
      rw [pathAt?_eq_none_iff.mp path] at found
      contradiction
    | some way =>
      have leads := nodeAt?_eq_descendant? offset node
      rw [found, path, Option.bind_some] at leads
      refine ⟨way, rfl, leads.symm, ?_⟩
      obtain ⟨place, child, here, contains, _, rfl⟩ := pathAt?_eq_some_iff.mp path
      rw [descendant?_cons, here, Option.bind_some] at leads
      cases below : child.nodeAt? offset with
      | none =>
        rw [pathAt?_eq_none_iff.mpr below, Option.getD_none] at leads ⊢
        obtain rfl := Option.some.inj leads
        exact ⟨around_cons_iff.mpr ⟨_, here, .inl ⟨rfl, contains⟩⟩, below⟩
      | some deeper =>
        obtain ⟨rest, path, reached, around, last⟩ := ih child (mem_children_of_child? here) below
        rw [path, Option.getD_some] at leads ⊢
        obtain rfl : hit = deeper := Option.some.inj (leads.trans reached)
        exact ⟨around_cons_iff.mpr ⟨child, here, .inr around⟩, last⟩

/-- Where only one child contains the offset, its index does not matter. -/
theorem pathAt?_of_apart (apart : node.ApartAt offset) (here : node.child? place = some child)
    (contains : offset ∈ child.span) :
    node.pathAt? offset = some (place :: (child.pathAt? offset).getD []) := by
  refine pathAt?_eq_some_iff.mpr ⟨place, child, here, contains, ?_, rfl⟩
  intro earlier ahead other there also
  have same := apart earlier place other child there here also contains
  omega

theorem apartAt_iff_pairwise :
    node.ApartAt offset ↔
      node.children.Pairwise fun first second => offset ∈ first.span → offset ∉ second.span := by
  rw [List.pairwise_iff_getElem]
  constructor
  · intro apart first second inside within ahead contains also
    have same := apart first second _ _ (List.getElem?_eq_getElem inside) (List.getElem?_eq_getElem within)
      contains also
    omega
  · intro apart first second child twin here there contains also
    obtain ⟨inside, rfl⟩ := List.getElem?_eq_some_iff.mp here
    obtain ⟨within, rfl⟩ := List.getElem?_eq_some_iff.mp there
    rcases Nat.lt_trichotomy first second with ahead | same | behind
    · exact absurd also (apart first second inside within ahead contains)
    · exact same
    · exact absurd contains (apart second first within inside behind also)

/-- Nesting is a matter of each node and its own children. -/
theorem nestedAt_iff :
    node.NestedAt offset ↔
      node.ApartAt offset ∧ ∀ child ∈ node.children, child.HoldsAt offset ∧ child.NestedAt offset := by
  constructor
  · intro nested
    refine ⟨nested.apart [] node rfl, ?_⟩
    intro child member
    obtain ⟨place, here⟩ := List.mem_iff_getElem?.mp member
    have step {path : List Nat} {part : Node} (found : child.descendant? path = some part) :
        node.descendant? (place :: path) = some part :=
      descendant?_cons_eq_some_iff.mpr ⟨child, here, found⟩
    refine ⟨nested.holds [place] child (List.cons_ne_nil _ _) (step rfl), ?_, ?_⟩
    · intro path part found
      exact nested.apart (place :: path) part (step found)
    · intro path part _ found
      exact nested.holds (place :: path) part (List.cons_ne_nil _ _) (step found)
  · rintro ⟨apart, children⟩
    constructor
    · rintro (_ | ⟨place, rest⟩) part found
      · exact Option.some.inj found ▸ apart
      · obtain ⟨child, here, found⟩ := descendant?_cons_eq_some_iff.mp found
        exact (children child (mem_children_of_child? here)).2.apart rest part found
    · rintro (_ | ⟨place, _ | ⟨next, rest⟩⟩) part below found
      · exact absurd rfl below
      · obtain ⟨child, here, found⟩ := descendant?_cons_eq_some_iff.mp found
        exact Option.some.inj found ▸ (children child (mem_children_of_child? here)).1
      · obtain ⟨child, here, found⟩ := descendant?_cons_eq_some_iff.mp found
        exact (children child (mem_children_of_child? here)).2.holds (next :: rest) part
          (List.cons_ne_nil _ _) found

namespace NestedAt

theorem at_child (nested : node.NestedAt offset) (here : node.child? place = some child) :
    child.HoldsAt offset ∧ child.NestedAt offset :=
  (nestedAt_iff.mp nested).2 child (mem_children_of_child? here)

/-- A node below a child brings the offset up into the child, level by level. -/
theorem mem_span_of_around (nested : node.NestedAt offset) (here : node.child? place = some child)
    (around : child.Around offset path) : offset ∈ child.span := by
  induction path generalizing node child place with
  | nil => exact absurd rfl around.1
  | cons next rest ih =>
    obtain ⟨grandchild, there, ⟨_, contains⟩ | deeper⟩ := around_cons_iff.mp around
    · exact (nested.at_child here).1 grandchild (mem_children_of_child? there) contains
    · have contains := ih (nested.at_child here).2 there deeper
      exact (nested.at_child here).1 grandchild (mem_children_of_child? there) contains

/-- The nodes around the offset are those on the way. Below a child the search agrees by
induction; that it enters the right child is where siblings have to be apart, and that it
enters one at all is where parents have to hold their children. -/
theorem around_iff (nested : node.NestedAt offset) :
    node.Around offset path ↔ path ≠ [] ∧ path <+: (node.pathAt? offset).getD [] := by
  induction path generalizing node with
  | nil => simp [Around]
  | cons place rest ih =>
    constructor
    · intro around
      obtain ⟨child, here, below⟩ := around_cons_iff.mp around
      have contains : offset ∈ child.span := by
        rcases below with ⟨_, contains⟩ | deeper
        · exact contains
        · exact nested.mem_span_of_around here deeper
      refine ⟨List.cons_ne_nil _ _, ?_⟩
      rw [pathAt?_of_apart (nested.apart [] node rfl) here contains, Option.getD_some,
        List.cons_prefix_cons]
      refine ⟨rfl, ?_⟩
      rcases below with ⟨rfl, _⟩ | deeper
      · exact List.nil_prefix
      · exact ((ih (nested.at_child here).2).mp deeper).2
    · rintro ⟨_, within⟩
      cases found : node.pathAt? offset with
      | none =>
        rw [found, Option.getD_none] at within
        exact absurd (List.prefix_nil.mp within) (List.cons_ne_nil _ _)
      | some way =>
        obtain ⟨first, child, here, contains, _, rfl⟩ := pathAt?_eq_some_iff.mp found
        rw [found, Option.getD_some, List.cons_prefix_cons] at within
        obtain ⟨rfl, within⟩ := within
        refine around_cons_iff.mpr ⟨child, here, ?_⟩
        by_cases stop : rest = []
        · exact .inl ⟨stop, contains⟩
        · exact .inr ((ih (nested.at_child here).2).mpr ⟨stop, within⟩)

end NestedAt

/-- A node without a hit has nothing around the offset, and no node around the offset lies
deeper than a hit. -/
structure HitsDeepest (node : Node) (offset : Nat) : Prop where
  none_iff : node.nodeAt? offset = none ↔ ∀ path, ¬ node.Around offset path
  deepest : ∀ hit, node.nodeAt? offset = some hit → ∃ way, node.pathAt? offset = some way ∧
    node.descendant? way = some hit ∧ node.Around offset way ∧
    ∀ path, node.Around offset path → path.length ≤ way.length

theorem NestedAt.hitsDeepest (nested : node.NestedAt offset) : node.HitsDeepest offset where
  none_iff := by
    constructor
    · intro noHit path around
      have within := (nested.around_iff.mp around).2
      rw [pathAt?_eq_none_iff.mpr noHit, Option.getD_none] at within
      exact around.1 (List.prefix_nil.mp within)
    · intro nothing
      cases found : node.nodeAt? offset with
      | none => rfl
      | some hit =>
        obtain ⟨way, _, _, around, _⟩ := exists_path_of_nodeAt? found
        exact absurd around (nothing way)
  deepest := by
    intro hit found
    obtain ⟨way, path, leads, around, _⟩ := exists_path_of_nodeAt? found
    refine ⟨way, path, leads, around, ?_⟩
    intro other also
    have within := (nested.around_iff.mp also).2
    rw [path, Option.getD_some] at within
    exact within.length_le

end MarkupTree.Node
