import MarkupTree.Attributes.Basic
import MarkupTree.Tag

/-! Parse trees of elements, texts and comments. Only elements have children, so the
kind of a node and the shape of its subtree never disagree. Nothing relates the spans of
a parent and its children: trees come from broken markup too. -/
namespace MarkupTree

inductive Kind where
  | element
  | text
  | comment
deriving DecidableEq, Repr

mutual

/-- The span is that of the whole element; the name keeps that of the opening tag. -/
structure Element where
  span : Span
  name : Tag.Name
  attributes : Attributes
  children : List Node

inductive Node where
  | element (element : Element)
  | text (span : Span) (content : String)
  | comment (span : Span) (content : String)

end

/-- What nodes of every kind share. A base stands for itself too, so its kind and
children are free. -/
structure Base where
  kind : Kind
  span : Span
  children : List Node

namespace Element

def base (element : Element) : Base := ⟨.element, element.span, element.children⟩

def attribute? (element : Element) (key : String) : Option String := element.attributes.get? key

def id? (element : Element) : Option String := element.attribute? "id"

def class? (element : Element) : Option String := element.attribute? "class"

/-- One line that tells an element apart in an outline, `name#id.class`. The values stand
as written, also where the class lists several or the name is empty. -/
def label (element : Element) : String :=
  element.name.text ++ (element.id?.elim "" ("#" ++ ·)) ++ (element.class?.elim "" ("." ++ ·))

end Element

namespace Node

instance : Inhabited Node := ⟨.text default ""⟩

def base : Node → Base
  | .element e => e.base
  | .text span _ => ⟨.text, span, []⟩
  | .comment span _ => ⟨.comment, span, []⟩

def kind (node : Node) : Kind := node.base.kind

def span (node : Node) : Span := node.base.span

def children (node : Node) : List Node := node.base.children

def childCount (node : Node) : Nat := node.children.length

def child? (node : Node) (index : Nat) : Option Node := node.children[index]?

def element? : Node → Option Element
  | .element e => some e
  | .text .. | .comment .. => none

/-- The characters of a text or between the markers of a comment. -/
def content? : Node → Option String
  | .element _ => none
  | .text _ content | .comment _ content => some content

@[simp] theorem children_element (element : Element) :
    (Node.element element).children = element.children := rfl

@[simp] theorem children_text (span : Span) (content : String) :
    (Node.text span content).children = [] := rfl

@[simp] theorem children_comment (span : Span) (content : String) :
    (Node.comment span content).children = [] := rfl

@[simp] theorem span_element (element : Element) : (Node.element element).span = element.span := rfl

@[simp] theorem span_text (span : Span) (content : String) : (Node.text span content).span = span := rfl

@[simp] theorem span_comment (span : Span) (content : String) :
    (Node.comment span content).span = span := rfl

@[simp] theorem kind_element (element : Element) : (Node.element element).kind = .element := rfl

@[simp] theorem kind_text (span : Span) (content : String) : (Node.text span content).kind = .text := rfl

@[simp] theorem kind_comment (span : Span) (content : String) :
    (Node.comment span content).kind = .comment := rfl

end Node

/-- What holds of texts and comments, and of an element whenever it holds of its
children, holds of every node. -/
theorem Node.induction {P : Node → Prop}
    (element : ∀ e : Element, (∀ child ∈ e.children, P child) → P (.element e))
    (text : ∀ span content, P (.text span content))
    (comment : ∀ span content, P (.comment span content)) : ∀ node, P node
  | .element ⟨_, _, _, children⟩ =>
    element _ fun child (_ : child ∈ children) => Node.induction element text comment child
  | .text span content => text span content
  | .comment span content => comment span content

/-- What holds of a node whenever it holds of its children holds of every node. -/
theorem Node.childrenInduction {P : Node → Prop}
    (step : ∀ node : Node, (∀ child ∈ node.children, P child) → P node) (node : Node) : P node :=
  Node.induction (fun e => step (.element e)) (fun _ _ => step _ (by simp)) (fun _ _ => step _ (by simp)) node

namespace Node

theorem mem_children_of_child? {node child : Node} {index : Nat} (here : node.child? index = some child) :
    child ∈ node.children :=
  List.mem_of_getElem? here

/-- The node a path leads to, unless it leaves the tree. A path lists child indexes from the
top; the empty path stays. -/
def descendant? (node : Node) : List Nat → Option Node
  | [] => some node
  | index :: rest => (node.child? index).bind (descendant? · rest)

@[simp] theorem descendant?_nil (node : Node) : node.descendant? [] = some node := rfl

@[simp] theorem descendant?_cons (node : Node) (index : Nat) (rest : List Nat) :
    node.descendant? (index :: rest) = (node.child? index).bind (·.descendant? rest) := rfl

theorem descendant?_cons_eq_some_iff {node part : Node} {index : Nat} {rest : List Nat} :
    node.descendant? (index :: rest) = some part ↔
      ∃ child, node.child? index = some child ∧ child.descendant? rest = some part :=
  Option.bind_eq_some_iff

theorem descendant?_append (node : Node) (first second : List Nat) :
    node.descendant? (first ++ second) = (node.descendant? first).bind (·.descendant? second) := by
  induction first generalizing node with
  | nil => rfl
  | cons index rest ih =>
    rw [List.cons_append, descendant?_cons, descendant?_cons]
    cases node.child? index with
    | none => rfl
    | some child => exact ih child

end Node
end MarkupTree
