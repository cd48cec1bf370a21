import Mathlib.Order.Bounds.Basic
import MarkupTree.Proofs.Node.Forest
import MarkupTree.Proofs.Offset.Nested

/-! The way of the search, told without the search. From each node it turns to the child of the
least index that contains the offset, and it ends at a node without such a child. However spans
overlap or escape there is one such way from every node, and the search goes that way. -/
namespace MarkupTree.Node

/-- The child at the index contains the offset, and none at a smaller index does. -/
def TurnsTo (node : Node) (offset place : Nat) : Prop :=
  IsLeast {index | ∃ child, node.child? index = some child ∧ offset ∈ child.span} place

/-- Each step of the path turns to the first child around the offset, and no child of the node it
ends at is around the offset. -/
structure Descends (node : Node) (offset : Nat) (path : List Nat) : Prop where
  turns : ∀ front place rest, path = front ++ place :: rest →
    ∃ part, node.descendant? front = some part ∧ part.TurnsTo offset place
  ends : ∃ hit, node.descendant? path = some hit ∧ ∀ child ∈ hit.children, offset ∉ child.span

/-- The same spans at the same paths below the nodes. The spans of the nodes themselves may differ,
and so may all else. -/
def SpannedAlike (node other : Node) : Prop :=
  ∀ place rest, (node.descendant? (place :: rest)).map span = (other.descendant? (place :: rest)).map span

variable {node other : Node} {offset place : Nat} {path front back : List Nat}

theorem turnsTo_iff :
    node.TurnsTo offset place ↔
      ∃ child, node.child? place = some child ∧ offset ∈ child.span ∧
        ∀ earlier < place, ∀ sibling, node.child? earlier = some sibling → offset ∉ sibling.span := by
  constructor
  · rintro ⟨⟨child, here, contains⟩, least⟩
    refine ⟨child, here, contains, ?_⟩
    intro earlier ahead sibling there also
    have behind : place ≤ earlier := least ⟨sibling, there, also⟩
    omega
  · rintro ⟨child, here, contains, missed⟩
    refine ⟨⟨child, here, contains⟩, ?_⟩
    rintro index ⟨sibling, there, also⟩
    apply Nat.le_of_not_lt
    intro ahead
    exact missed index ahead sibling there also

theorem pathAt?_eq_some_iff_turnsTo :
    node.pathAt? offset = some path ↔
      ∃ place child, node.child? place = some child ∧ node.TurnsTo offset place ∧
        path = place :: (child.pathAt? offset).getD [] := by
  rw [pathAt?_eq_some_iff]
  constructor
  · rintro ⟨place, child, here, contains, missed, split⟩
    exact ⟨place, child, here, turnsTo_iff.mpr ⟨child, here, contains, missed⟩, split⟩
  · rintro ⟨place, child, here, turns, split⟩
    obtain ⟨same, there, contains, missed⟩ := turnsTo_iff.mp turns
    obtain rfl := Option.some.inj (here.symm.trans there)
    exact ⟨place, child, here, contains, missed, split⟩

theorem descends_nil_iff : node.Descends offset [] ↔ ∀ child ∈ node.children, offset ∉ child.span := by
  constructor
  · rintro ⟨_, hit, leads, last⟩
    exact Option.some.inj leads ▸ last
  · intro last
    refine ⟨?_, node, rfl, last⟩
    intro front place rest split
    exact absurd split.symm (by simp)

theorem descends_cons_iff :
    node.Descends offset (place :: path) ↔
      ∃ child, node.child? place = some child ∧ node.TurnsTo offset place ∧ child.Descends offset path := by
  constructor
  · rintro ⟨turns, hit, leads, last⟩
    obtain ⟨_, same, first⟩ := turns [] place path rfl
    obtain rfl := Option.some.inj same
    obtain ⟨child, here, leads⟩ := descendant?_cons_eq_some_iff.mp leads
    refine ⟨child, here, first, ?_, hit, leads, last⟩
    intro front next rest split
    have later := turns (place :: front) next rest (by rw [split, List.cons_append])
    rwa [descendant?_cons, here, Option.bind_some] at later
  · rintro ⟨child, here, first, below, hit, leads, last⟩
    refine ⟨?_, hit, descendant?_cons_eq_some_iff.mpr ⟨child, here, leads⟩, last⟩
    rintro (_ | ⟨index, front⟩) next rest split
    · obtain ⟨rfl, rfl⟩ := List.cons.inj split
      exact ⟨node, rfl, first⟩
    · obtain ⟨rfl, onward⟩ := List.cons.inj split
      rw [descendant?_cons, here, Option.bind_some]
      exact below front next rest onward

/-- The search goes the only way there is. -/
theorem descends_iff : node.Descends offset path ↔ (node.pathAt? offset).getD [] = path := by
  induction path generalizing node with
  | nil =>
    rw [descends_nil_iff, ← nodeAt?_eq_none_iff, ← pathAt?_eq_none_iff]
    cases found : node.pathAt? offset with
    | none => simp
    | some way =>
      obtain ⟨place, child, _, _, rfl⟩ := pathAt?_eq_some_iff_turnsTo.mp found
      simp
  | cons place rest ih =>
    rw [descends_cons_iff]
    constructor
    · rintro ⟨child, here, turns, below⟩
      have found := pathAt?_eq_some_iff_turnsTo.mpr ⟨place, child, here, turns, rfl⟩
      rw [found, Option.getD_some, ih.mp below]
    · intro same
      cases found : node.pathAt? offset with
      | none => simp [found] at same
      | some way =>
        rw [found, Option.getD_some] at same
        obtain ⟨index, child, here, turns, split⟩ := pathAt?_eq_some_iff_turnsTo.mp found
        obtain ⟨rfl, below⟩ := List.cons.inj (same.symm.trans split)
        exact ⟨child, here, turns, ih.mpr below.symm⟩

theorem descends_getD (node : Node) (offset : Nat) : node.Descends offset ((node.pathAt? offset).getD []) :=
  descends_iff.mpr rfl

namespace Descends

theorem unique (way : node.Descends offset path) (again : node.Descends offset back) : path = back :=
  (descends_iff.mp way).symm.trans (descends_iff.mp again)

theorem pathAt?_eq (way : node.Descends offset path) (below : path ≠ []) : node.pathAt? offset = some path := by
  have same := descends_iff.mp way
  cases found : node.pathAt? offset with
  | none =>
    rw [found, Option.getD_none] at same
    exact absurd same.symm below
  | some other => rw [← same, found, Option.getD_some]

theorem nodeAt?_eq (way : node.Descends offset path) (below : path ≠ []) :
    node.nodeAt? offset = node.descendant? path := by
  rw [nodeAt?_eq_descendant?, way.pathAt?_eq below, Option.bind_some]

/-- From a node on the way, the rest of the way is the way. -/
theorem drop (way : node.Descends offset (front ++ back)) :
    ∃ part, node.descendant? front = some part ∧ part.Descends offset back := by
  induction front generalizing node with
  | nil => exact ⟨node, rfl, way⟩
  | cons place rest ih =>
    obtain ⟨child, here, _, below⟩ := descends_cons_iff.mp way
    obtain ⟨part, found, onward⟩ := ih below
    exact ⟨part, descendant?_cons_eq_some_iff.mpr ⟨child, here, found⟩, onward⟩

/-- The nodes on the way contain the offset. -/
theorem around (way : node.Descends offset (front ++ back)) (below : front ≠ []) : node.Around offset front := by
  induction front generalizing node with
  | nil => exact absurd rfl below
  | cons place rest ih =>
    obtain ⟨child, here, turns, onward⟩ := descends_cons_iff.mp way
    refine around_cons_iff.mpr ⟨child, here, ?_⟩
    cases rest with
    | nil =>
      obtain ⟨same, there, contains, _⟩ := turnsTo_iff.mp turns
      obtain rfl := Option.some.inj (here.symm.trans there)
      exact .inl ⟨rfl, contains⟩
    | cons next rest => exact .inr (ih onward (List.cons_ne_nil next rest))

end Descends

theorem SpannedAlike.descends_iff (alike : node.SpannedAlike other) :
    node.Descends offset path ↔ other.Descends offset path := by
  rw [Node.descends_iff, Node.descends_iff, pathAt?_eq_of_spans offset alike]

/-- Without a child around the offset there is no hit. Otherwise there is one way down that turns to
the first such child at each step until there is none, and the hit is the node at its end: it holds
for each node on the way that it contains the offset and is searched to the same hit, but for the hit
itself, below which nothing is found. The way depends on the spans below the node alone. -/
theorem nodeAt?_descends (node : Node) (offset : Nat) :
    (node.nodeAt? offset = none ↔ ∀ child ∈ node.children, offset ∉ child.span) ∧
    ((∃ child ∈ node.children, offset ∈ child.span) → ∃! path, path ≠ [] ∧ node.Descends offset path) ∧
    (∀ path, path ≠ [] → node.Descends offset path →
      ∃ hit, node.descendant? path = some hit ∧ node.nodeAt? offset = some hit ∧
        node.pathAt? offset = some path ∧ hit.nodeAt? offset = none ∧
        (∀ front, front ≠ [] → front <+: path → node.Around offset front) ∧
        ∀ front, front <+: path → front ≠ path →
          ∃ part, node.descendant? front = some part ∧ part.nodeAt? offset = some hit) ∧
    ∀ other, node.SpannedAlike other → ∀ path, node.Descends offset path ↔ other.Descends offset path := by
  refine ⟨nodeAt?_eq_none_iff, ?_, ?_, fun other alike path => alike.descends_iff⟩
  · rintro ⟨child, member, contains⟩
    have way := descends_getD node offset
    refine ⟨_, ⟨?_, way⟩, fun path ⟨_, again⟩ => again.unique way⟩
    intro stays
    rw [stays] at way
    exact descends_nil_iff.mp way child member contains
  · intro path below way
    obtain ⟨hit, leads, last⟩ := way.ends
    have found := (way.nodeAt?_eq below).trans leads
    refine ⟨hit, leads, found, way.pathAt?_eq below, nodeAt?_eq_none_iff.mpr last, ?_, ?_⟩
    · rintro front above ⟨back, rfl⟩
      exact way.around above
    · rintro front ⟨back, rfl⟩ short
      obtain ⟨part, here, onward⟩ := way.drop
      have further : back ≠ [] := by
        rintro rfl
        exact short (List.append_nil front).symm
      refine ⟨part, here, ?_⟩
      rw [descendant?_append, here, Option.bind_some] at leads
      exact (onward.nodeAt?_eq further).trans leads

theorem spannedAlike_of_forall₂
    (children : List.Forall₂ (fun child twin => child.span = twin.span ∧ child.SpannedAlike twin)
      node.children other.children) : node.SpannedAlike other := by
  intro place rest
  have step := forall₂_iff_getElem?.mp children place
  rw [descendant?_cons, descendant?_cons, child?, child?]
  generalize node.children[place]? = here, other.children[place]? = there at step
  cases step with
  | none => rfl
  | some alike =>
    cases rest with
    | nil => exact congrArg some alike.1
    | cons next rest => exact alike.2 next rest

/-- Children over spans that are empty, overlap, come twice and reach beyond their parents. -/
def overlaid (span : Span) (name : String) (leaf : Span → String → Node) : Node :=
  .element ⟨span, ⟨name, span⟩, ∅,
    [leaf ⟨5, 5⟩ "a", .element ⟨⟨2, 6⟩, ⟨name, ⟨2, 5⟩⟩, ∅, [.text ⟨9, 12⟩ "b", leaf ⟨4, 8⟩ "c", leaf ⟨4, 8⟩ "d"]⟩,
      leaf ⟨0, 20⟩ "e"]⟩

theorem spannedAlike_overlaid :
    (overlaid ⟨50, 50⟩ "p" .text).SpannedAlike (overlaid ⟨0, 9⟩ "" .comment) := by
  have leaf (span other : Span) (content : String) :
      (Node.text span content).SpannedAlike (.comment other content) := spannedAlike_of_forall₂ .nil
  have kept : (Node.text ⟨9, 12⟩ "b").SpannedAlike (.text ⟨9, 12⟩ "b") := spannedAlike_of_forall₂ .nil
  refine spannedAlike_of_forall₂ (.cons ⟨rfl, leaf _ _ _⟩ (.cons ⟨rfl, ?_⟩ (.cons ⟨rfl, leaf _ _ _⟩ .nil)))
  exact spannedAlike_of_forall₂ (.cons ⟨rfl, kept⟩ (.cons ⟨rfl, leaf _ _ _⟩ (.cons ⟨rfl, leaf _ _ _⟩ .nil)))

theorem nodeAt?_descends_overlaid :
    let first := overlaid ⟨50, 50⟩ "p" .text
    let second := overlaid ⟨0, 9⟩ "" .comment
    (∃! path, path ≠ [] ∧ first.Descends 5 path) ∧ first.SpannedAlike second ∧
      first.nodeAt? 5 = some (.text ⟨4, 8⟩ "c") ∧ second.nodeAt? 5 = some (.comment ⟨4, 8⟩ "c") := by
  intro first second
  have way : first.Descends 5 [1, 1] := descends_iff.mpr rfl
  obtain ⟨_, exactly, leads, same⟩ := nodeAt?_descends first 5
  obtain ⟨hit, reached, found, _⟩ := leads [1, 1] (by decide) way
  obtain rfl : .text ⟨4, 8⟩ "c" = hit := Option.some.inj reached
  have twin := (same second spannedAlike_overlaid [1, 1]).mp way
  exact ⟨exactly ⟨_, List.mem_cons_of_mem _ List.mem_cons_self, by decide⟩, spannedAlike_overlaid, found,
    twin.nodeAt?_eq (by decide)⟩

end MarkupTree.Node
