import MarkupTree.Node.Equality
import MarkupTree.Proofs.Attributes.Equality
import MarkupTree.Proofs.Node.Forest

/-! Equality of trees. The comparison alternates between nodes, what nodes share and their
children; it comes down to one relation on trees, and to what readers see at every path. -/
namespace MarkupTree

namespace Node

/-- Trees that differ at most in the order of attributes and in where opening tags stood,
at any depth. -/
inductive Rearranged : Node → Node → Prop where
  | element {e other : Element} (span : e.span = other.span) (name : e.name.text = other.name.text)
      (attributes : e.attributes.entries.Perm other.attributes.entries)
      (children : List.Forall₂ Rearranged e.children other.children) :
      Rearranged (.element e) (.element other)
  | text (span : Span) (content : String) : Rearranged (.text span content) (.text span content)
  | comment (span : Span) (content : String) : Rearranged (.comment span content) (.comment span content)

theorem forest_beq_iff {forest others : List Node} :
    (forest == others) = true ↔ List.Forall₂ (fun node other : Node => (node == other) = true) forest others := by
  induction forest generalizing others with
  | nil => cases others <;> simp
  | cons node forest ih =>
    cases others with
    | nil => simp
    | cons other others => rw [List.cons_beq_cons, Bool.and_eq_true, List.forall₂_cons, ih]

end Node

theorem Element.beq_iff {e other : Element} :
    (e == other) = true ↔ e.span = other.span ∧ e.name.text = other.name.text ∧
      e.attributes.entries.Perm other.attributes.entries ∧
      List.Forall₂ (fun child twin : Node => (child == twin) = true) e.children other.children := by
  rw [beq_eq, Base.beq_eq]
  simp only [base, beq_self_eq_true, Bool.true_and, Bool.and_eq_true, beq_iff_eq, Attributes.beq_iff_perm,
    Node.forest_beq_iff]
  tauto

namespace Node

theorem beq_iff_rearranged {node other : Node} : (node == other) = true ↔ node.Rearranged other := by
  induction node using Node.induction generalizing other with
  | element e ih =>
    cases other with
    | element f =>
      rw [element_beq_element, Element.beq_iff, forall₂_congr_of_mem fun child member twin => ih child member]
      constructor
      · rintro ⟨span, name, attributes, children⟩
        exact .element span name attributes children
      · intro same
        cases same with
        | element span name attributes children => exact ⟨span, name, attributes, children⟩
    | text | comment => exact iff_of_false Bool.false_ne_true fun same => nomatch same
  | text span content =>
    cases other with
    | text otherSpan otherContent =>
      simp only [text_beq_text, Bool.and_eq_true, beq_iff_eq]
      constructor
      · rintro ⟨rfl, rfl⟩
        exact .text _ _
      · intro same
        cases same
        exact ⟨rfl, rfl⟩
    | element | comment => exact iff_of_false Bool.false_ne_true fun same => nomatch same
  | comment span content =>
    cases other with
    | comment otherSpan otherContent =>
      simp only [comment_beq_comment, Bool.and_eq_true, beq_iff_eq]
      constructor
      · rintro ⟨rfl, rfl⟩
        exact .comment _ _
      · intro same
        cases same
        exact ⟨rfl, rfl⟩
    | element | text => exact iff_of_false Bool.false_ne_true fun same => nomatch same

/-- What readers see of a node without going to its children. -/
structure View where
  kind : Kind
  span : Span
  content : Option String
  name : Option String
  attributes : String → Option String

def view (node : Node) : View :=
  ⟨node.kind, node.span, node.content?, node.element?.map (·.name.text),
    fun key => node.element?.bind (·.attribute? key)⟩

theorem view_element_eq_iff {e other : Element} :
    (Node.element e).view = (Node.element other).view ↔
      e.span = other.span ∧ e.name.text = other.name.text ∧
        e.attributes.entries.Perm other.attributes.entries := by
  simp only [view, kind_element, span_element, content?, element?, Option.map_some, Option.bind_some,
    View.mk.injEq, Option.some.injEq, true_and, funext_iff, Element.attribute?, Attributes.perm_iff_forall_get?]

theorem Rearranged.view_eq {node other : Node} (same : node.Rearranged other) : node.view = other.view := by
  cases same with
  | element span name attributes => exact view_element_eq_iff.mpr ⟨span, name, attributes⟩
  | text | comment => rfl

theorem Rearranged.children {node other : Node} (same : node.Rearranged other) :
    List.Forall₂ Rearranged node.children other.children := by
  cases same with
  | element _ _ _ children => exact children
  | text | comment => exact .nil

theorem rearranged_of_view_eq {node other : Node} (views : node.view = other.view)
    (children : List.Forall₂ Rearranged node.children other.children) : node.Rearranged other := by
  have kinds := congrArg View.kind views
  have spans := congrArg View.span views
  have contents := congrArg View.content views
  cases node with
  | element e =>
    cases other with
    | element f =>
      obtain ⟨span, name, attributes⟩ := view_element_eq_iff.mp views
      exact .element span name attributes children
    | text | comment => exact Kind.noConfusion kinds
  | text span content =>
    cases other with
    | text otherSpan otherContent =>
      cases spans
      cases contents
      exact .text _ _
    | element | comment => exact Kind.noConfusion kinds
  | comment span content =>
    cases other with
    | comment otherSpan otherContent =>
      cases spans
      cases contents
      exact .comment _ _
    | element | text => exact Kind.noConfusion kinds

theorem rearranged_iff {node other : Node} :
    node.Rearranged other ↔
      node.view = other.view ∧ List.Forall₂ Rearranged node.children other.children :=
  ⟨fun same => ⟨same.view_eq, same.children⟩, fun same => rearranged_of_view_eq same.1 same.2⟩

/-- One view at each path, and the same paths. -/
def SeenAlike (node other : Node) : Prop :=
  ∀ path, (node.descendant? path).map view = (other.descendant? path).map view

theorem seenAlike_iff {node other : Node} :
    node.SeenAlike other ↔
      node.view = other.view ∧ List.Forall₂ SeenAlike node.children other.children := by
  rw [forall₂_iff_getElem?]
  constructor
  · intro alike
    refine ⟨Option.some.inj (alike []), fun index => ?_⟩
    have below (path : List Nat) : (node.children[index]?.bind (·.descendant? path)).map view =
        (other.children[index]?.bind (·.descendant? path)).map view := alike (index :: path)
    cases here : node.children[index]? with
    | none =>
      cases there : other.children[index]? with
      | none => exact .none
      | some twin => simpa [here, there] using below []
    | some child =>
      cases there : other.children[index]? with
      | none => simpa [here, there] using below []
      | some twin => exact .some fun path => by simpa [here, there] using below path
  · rintro ⟨views, children⟩ (_ | ⟨index, path⟩)
    · exact congrArg some views
    · have step := children index
      rw [descendant?_cons, descendant?_cons, child?, child?]
      generalize node.children[index]? = here, other.children[index]? = there at step
      cases step with
      | none => rfl
      | some alike => exact alike path

theorem rearranged_iff_seenAlike {node other : Node} : node.Rearranged other ↔ node.SeenAlike other := by
  induction node using Node.childrenInduction generalizing other with
  | step node ih =>
    rw [rearranged_iff, seenAlike_iff, forall₂_congr_of_mem fun child member twin => ih child member]

theorem beq_equivalence : Equivalence fun node other : Node => (node == other) = true where
  refl node := beq_iff_rearranged.mpr (rearranged_iff_seenAlike.mpr fun _ => rfl)
  symm same := by
    rw [beq_iff_rearranged, rearranged_iff_seenAlike] at same ⊢
    exact fun path => (same path).symm
  trans same alike := by
    rw [beq_iff_rearranged, rearranged_iff_seenAlike] at same alike ⊢
    exact fun path => (same path).trans (alike path)

instance : EquivBEq Node where
  rfl := beq_equivalence.refl _
  symm := beq_equivalence.symm
  trans := beq_equivalence.trans

/-- Trees are equal where readers see the same at every path. The order of attributes and the
places of opening tags are not seen, and equality is an equivalence. -/
theorem beq_iff_seenAlike_at_every_path :
    (∀ node other : Node, (node == other) = true ↔
      ∀ path, (node.descendant? path).map view = (other.descendant? path).map view) ∧
    (∀ node other : Node, node.Rearranged other → (node == other) = true) ∧
    Equivalence fun node other : Node => (node == other) = true :=
  ⟨fun _ _ => beq_iff_rearranged.trans rearranged_iff_seenAlike,
    fun _ _ => beq_iff_rearranged.mpr, beq_equivalence⟩

end Node
end MarkupTree
