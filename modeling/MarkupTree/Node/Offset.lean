import MarkupTree.Node.Basic

/-! Which node stands at a document offset. The search goes down through the first child
that contains the offset, as far as there is one, and never turns back; it does not look
at the span it starts from. So where siblings overlap, or a child reaches beyond its
parent, the hit need not be the deepest node around the offset. -/
namespace MarkupTree.Node

mutual

def nodeAt? (offset : Nat) : Node → Option Node
  | .element ⟨_, _, _, children⟩ => hitAmong? offset children
  | .text .. | .comment .. => none

def hitAmong? (offset : Nat) : List Node → Option Node
  | [] => none
  | first :: rest =>
    if offset ∈ first.span then some ((first.nodeAt? offset).getD first) else hitAmong? offset rest

end

mutual

/-- The way to the hit, as child indexes from the node the search starts at. -/
def pathAt? (offset : Nat) : Node → Option (List Nat)
  | .element ⟨_, _, _, children⟩ => pathAmong? offset 0 children
  | .text .. | .comment .. => none

def pathAmong? (offset index : Nat) : List Node → Option (List Nat)
  | [] => none
  | first :: rest =>
    if offset ∈ first.span then some (index :: (first.pathAt? offset).getD [])
    else pathAmong? offset (index + 1) rest

end

theorem nodeAt?_eq_hitAmong? (offset : Nat) (node : Node) : node.nodeAt? offset = hitAmong? offset node.children := by
  cases node with
  | element e => cases e; rfl
  | text span content => rfl
  | comment span content => rfl

theorem pathAt?_eq_pathAmong? (offset : Nat) (node : Node) :
    node.pathAt? offset = pathAmong? offset 0 node.children := by
  cases node with
  | element e => cases e; rfl
  | text span content => rfl
  | comment span content => rfl

/-- One step of the search: the first child around the offset, then on from there. -/
theorem nodeAt?_eq_find? (offset : Nat) (node : Node) :
    node.nodeAt? offset =
      (node.children.find? (offset ∈ ·.span)).map fun child => (child.nodeAt? offset).getD child := by
  rw [nodeAt?_eq_hitAmong?]
  induction node.children with
  | nil => rfl
  | cons first rest ih =>
    unfold hitAmong?
    by_cases here : offset ∈ first.span
    · simp [here]
    · simp [here, ih]

theorem nodeAt?_eq_none_iff {offset : Nat} {node : Node} :
    node.nodeAt? offset = none ↔ ∀ child ∈ node.children, offset ∉ child.span := by
  rw [nodeAt?_eq_find?, Option.map_eq_none_iff, List.find?_eq_none]
  simp only [decide_eq_true_eq]

/-- What a hit tells: the children before the one searched do not contain the offset. -/
theorem exists_child_of_nodeAt? {offset : Nat} {node hit : Node} (found : node.nodeAt? offset = some hit) :
    ∃ before child after, node.children = before ++ child :: after ∧
      (∀ earlier ∈ before, offset ∉ earlier.span) ∧ offset ∈ child.span ∧
      (child.nodeAt? offset).getD child = hit := by
  rw [nodeAt?_eq_find?, Option.map_eq_some_iff] at found
  obtain ⟨child, first, same⟩ := found
  obtain ⟨here, before, after, split, earlier⟩ := List.find?_eq_some_iff_append.mp first
  exact ⟨before, child, after, split, by simpa using earlier, by simpa using here, same⟩

theorem pathAmong?_eq_findIdx? (offset index : Nat) (forest : List Node) :
    pathAmong? offset index forest =
      (forest.findIdx? (offset ∈ ·.span)).bind fun place =>
        forest[place]?.map fun child => (index + place) :: (child.pathAt? offset).getD [] := by
  induction forest generalizing index with
  | nil => rfl
  | cons first rest ih =>
    unfold pathAmong?
    by_cases here : offset ∈ first.span
    · simp [here, List.findIdx?_cons]
    · rw [if_neg here, ih, List.findIdx?_cons]
      cases rest.findIdx? (offset ∈ ·.span) with
      | none => simp [here]
      | some place => simp [here, Nat.add_assoc, Nat.add_comm 1]

theorem pathAt?_eq_findIdx? (offset : Nat) (node : Node) :
    node.pathAt? offset =
      (node.children.findIdx? (offset ∈ ·.span)).bind fun place =>
        (node.child? place).map fun child => place :: (child.pathAt? offset).getD [] := by
  rw [pathAt?_eq_pathAmong?, pathAmong?_eq_findIdx?]
  simp only [Nat.zero_add]
  rfl

/-- The way depends on the spans below the node and on nothing else. -/
theorem pathAt?_eq_of_spans {node other : Node} (offset : Nat)
    (spans : ∀ place rest, (node.descendant? (place :: rest)).map span = (other.descendant? (place :: rest)).map span) :
    node.pathAt? offset = other.pathAt? offset := by
  induction node using Node.childrenInduction generalizing other with
  | step node ih =>
    have siblings : node.children.map span = other.children.map span := by
      refine List.ext_getElem? fun place => ?_
      simpa [child?, Option.map_bind, Function.comp_def] using spans place []
    have first : node.children.findIdx? (offset ∈ ·.span) = other.children.findIdx? (offset ∈ ·.span) := by
      have (forest : List Node) : forest.findIdx? (offset ∈ ·.span) = (forest.map span).findIdx? (offset ∈ ·) := by
        rw [List.findIdx?_map]
        rfl
      rw [this, this, siblings]
    rw [pathAt?_eq_findIdx?, pathAt?_eq_findIdx?, first]
    refine congrArg _ (funext fun place => ?_)
    have step (rest : List Nat) := spans place rest
    simp only [descendant?_cons] at step
    cases here : node.child? place with
    | none =>
      cases there : other.child? place with
      | none => rfl
      | some twin => simpa [here, there] using step []
    | some child =>
      cases there : other.child? place with
      | none => simpa [here, there] using step []
      | some twin =>
        simp only [here, there, Option.bind_some] at step
        have below := ih child (mem_children_of_child? here) fun next rest => step (next :: rest)
        rw [Option.map_some, Option.map_some, below]

/-- Either search ends where the other does: without a hit, or with a path to it. -/
theorem search_agrees (offset : Nat) (node : Node) :
    (node.nodeAt? offset = none ∧ node.pathAt? offset = none) ∨
      ∃ path hit, node.nodeAt? offset = some hit ∧ node.pathAt? offset = some path ∧
        node.descendant? path = some hit := by
  induction node using Node.induction with
  | text span content => exact .inl ⟨rfl, rfl⟩
  | comment span content => exact .inl ⟨rfl, rfl⟩
  | element e ih =>
    rw [nodeAt?_eq_find?, pathAt?_eq_findIdx?, List.find?_eq_bind_findIdx?_getElem?]
    cases found : (Node.element e).children.findIdx? (offset ∈ ·.span) with
    | none => exact .inl ⟨rfl, rfl⟩
    | some place =>
      obtain ⟨inside, _, _⟩ := List.findIdx?_eq_some_iff_getElem.mp found
      have here : (Node.element e).child? place = some (Node.element e).children[place] :=
        List.getElem?_eq_getElem inside
      have below := ih (Node.element e).children[place] (List.getElem_mem inside)
      generalize (Node.element e).children[place] = child at here below
      have within : (Node.element e).children[place]? = some child := here
      simp only [Option.bind_some, here, within, Option.map_some]
      refine .inr ?_
      rcases below with ⟨noHit, noPath⟩ | ⟨path, hit, hitBelow, pathBelow, leads⟩
      · exact ⟨[place], child, by rw [noHit]; rfl, by rw [noPath]; rfl, by simp [here]⟩
      · exact ⟨place :: path, hit, by rw [hitBelow]; rfl, by rw [pathBelow]; rfl, by simp [here, leads]⟩

/-- The path leads to the hit. -/
theorem nodeAt?_eq_descendant? (offset : Nat) (node : Node) :
    node.nodeAt? offset = (node.pathAt? offset).bind node.descendant? := by
  rcases search_agrees offset node with ⟨noHit, noPath⟩ | ⟨path, hit, hitHere, pathHere, leads⟩
  · rw [noHit, noPath]; rfl
  · rw [hitHere, pathHere]; exact leads.symm

theorem pathAt?_eq_none_iff {offset : Nat} {node : Node} :
    node.pathAt? offset = none ↔ node.nodeAt? offset = none := by
  rcases search_agrees offset node with ⟨noHit, noPath⟩ | ⟨path, hit, found, way, _⟩
  · simp [noHit, noPath]
  · simp [found, way]

/-- One step of the way: the first child around the offset, then on from there. -/
theorem pathAt?_eq_some_iff {offset : Nat} {node : Node} {path : List Nat} :
    node.pathAt? offset = some path ↔
      ∃ place child, node.child? place = some child ∧ offset ∈ child.span ∧
        (∀ earlier < place, ∀ other, node.child? earlier = some other → offset ∉ other.span) ∧
        path = place :: (child.pathAt? offset).getD [] := by
  rw [pathAt?_eq_findIdx?, Option.bind_eq_some_iff]
  constructor
  · rintro ⟨place, first, step⟩
    obtain ⟨child, here, same⟩ := Option.map_eq_some_iff.mp step
    obtain ⟨inside, contains, before⟩ := List.findIdx?_eq_some_iff_getElem.mp first
    obtain ⟨_, rfl⟩ := List.getElem?_eq_some_iff.mp here
    refine ⟨place, _, here, of_decide_eq_true contains, ?_, same.symm⟩
    intro earlier ahead other there
    obtain ⟨_, rfl⟩ := List.getElem?_eq_some_iff.mp there
    simpa using before earlier ahead
  · rintro ⟨place, child, here, contains, before, rfl⟩
    refine ⟨place, ?_, by rw [here]; rfl⟩
    obtain ⟨inside, rfl⟩ := List.getElem?_eq_some_iff.mp here
    refine List.findIdx?_eq_some_iff_getElem.mpr ⟨inside, decide_eq_true contains, ?_⟩
    intro earlier ahead
    have missed := before earlier ahead _ (List.getElem?_eq_getElem (by omega))
    simpa using missed

end MarkupTree.Node
