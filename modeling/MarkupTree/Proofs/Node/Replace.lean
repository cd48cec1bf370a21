import MarkupTree.Node.Basic

/-! Putting another node in the place of one that a path leads to. All else stays, so the
node that was there comes back when it is put in again. -/
namespace MarkupTree.Node

/-- The tree with another node at the path. Nothing changes if the path leaves the tree. -/
def replaceAt : Node → List Nat → Node → Node
  | _, [], part => part
  | .element e, place :: rest, part =>
    .element { e with children := e.children.modify place fun child => child.replaceAt rest part }
  | .text span content, _ :: _, _ => .text span content
  | .comment span content, _ :: _, _ => .comment span content

theorem modify_of_getElem? {forest : List Node} {place : Nat} {child : Node}
    (here : forest[place]? = some child) (change : Node → Node) :
    forest.modify place change = forest.take place ++ change child :: forest.drop (place + 1) := by
  obtain ⟨inside, rfl⟩ := List.getElem?_eq_some_iff.mp here
  exact List.modify_eq_take_cons_drop inside

theorem eq_take_append_cons_drop {forest : List Node} {place : Nat} {child : Node}
    (here : forest[place]? = some child) : forest = forest.take place ++ child :: forest.drop (place + 1) := by
  have unchanged := modify_of_getElem? here id
  rwa [List.modify_id] at unchanged

variable {node old : Node} {path : List Nat}

@[simp] theorem replaceAt_nil (node part : Node) : node.replaceAt [] part = part := by
  cases node <;> rfl

@[simp] theorem replaceAt_element_cons (e : Element) (place : Nat) (rest : List Nat) (part : Node) :
    (Node.element e).replaceAt (place :: rest) part =
      .element { e with children := e.children.modify place fun child => child.replaceAt rest part } := rfl

theorem children_replaceAt_cons (node : Node) (place : Nat) (rest : List Nat) (part : Node) :
    (node.replaceAt (place :: rest) part).children =
      node.children.modify place fun child => child.replaceAt rest part := by
  cases node with
  | element e => rfl
  | text | comment => exact (List.modify_nil _ _).symm

theorem descendant?_replaceAt (found : node.descendant? path = some old) (part : Node) :
    (node.replaceAt path part).descendant? path = some part := by
  induction path generalizing node with
  | nil => simp
  | cons place rest ih =>
    obtain ⟨child, here, found⟩ := descendant?_cons_eq_some_iff.mp found
    have there : (node.replaceAt (place :: rest) part).child? place = some (child.replaceAt rest part) := by
      rw [child?, children_replaceAt_cons, List.getElem?_modify_eq]
      exact congrArg (Option.map _) here
    rw [descendant?_cons, there, Option.bind_some, ih found]

theorem replaceAt_self (found : node.descendant? path = some old) : node.replaceAt path old = node := by
  induction path generalizing node with
  | nil =>
    obtain rfl := Option.some.inj found
    exact replaceAt_nil _ _
  | cons place rest ih =>
    obtain ⟨child, here, below⟩ := descendant?_cons_eq_some_iff.mp found
    cases node with
    | element e =>
      obtain ⟨span, name, attributes, children⟩ := e
      have same := modify_of_getElem? here fun child => child.replaceAt rest old
      rw [ih below, ← eq_take_append_cons_drop here] at same
      rw [replaceAt_element_cons]
      exact congrArg (fun children => Node.element ⟨span, name, attributes, children⟩) same
    | text | comment => exact absurd here (by simp [child?])

end MarkupTree.Node
