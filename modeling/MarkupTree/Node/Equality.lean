import MarkupTree.Node.Basic

/-! When two trees count as the same: node by node the kinds, the spans and the texts or
names agree, and attributes agree in any order. Where an opening tag stood does not
matter, so the span of a name is not compared. -/
namespace MarkupTree

/-- The comparison of what nodes share, with that of their children made already. -/
def Base.beqAround (a b : Base) (children : Bool) : Bool := a.kind == b.kind && a.span == b.span && children

mutual

def Element.beq (element other : Element) : Bool :=
  match element with
  | ⟨_, _, _, children⟩ =>
    element.base.beqAround other.base (Node.forestBeq children other.children) &&
      element.name.text == other.name.text && element.attributes == other.attributes

def Node.beq : Node → Node → Bool
  | .element element, .element other => element.beq other
  | .text span content, .text otherSpan otherContent => span == otherSpan && content == otherContent
  | .comment span content, .comment otherSpan otherContent => span == otherSpan && content == otherContent
  | _, _ => false

def Node.forestBeq : List Node → List Node → Bool
  | [], [] => true
  | first :: rest, other :: others => first.beq other && Node.forestBeq rest others
  | _, _ => false

end

instance : BEq Element := ⟨Element.beq⟩

instance : BEq Node := ⟨Node.beq⟩

instance : BEq Base where
  beq a b := a.beqAround b (a.children == b.children)

theorem Node.forestBeq_eq (forest other : List Node) : Node.forestBeq forest other = (forest == other) := by
  induction forest generalizing other with
  | nil => cases other <;> rfl
  | cons first rest ih =>
    cases other with
    | nil => rfl
    | cons node others => exact congrArg (first.beq node && ·) (ih others)

theorem Base.beq_eq (a b : Base) : (a == b) = (a.kind == b.kind && a.span == b.span && a.children == b.children) :=
  rfl

theorem Element.beq_eq (a b : Element) :
    (a == b) = (a.base == b.base && a.name.text == b.name.text && a.attributes == b.attributes) := by
  cases a
  exact congrArg (fun children => Base.beqAround _ _ children && _ && _) (Node.forestBeq_eq _ _)

@[simp] theorem Node.element_beq_element (a b : Element) : (Node.element a == Node.element b) = (a == b) := rfl

@[simp] theorem Node.text_beq_text (span other : Span) (content otherContent : String) :
    (Node.text span content == Node.text other otherContent) = (span == other && content == otherContent) := rfl

@[simp] theorem Node.comment_beq_comment (span other : Span) (content otherContent : String) :
    (Node.comment span content == Node.comment other otherContent) = (span == other && content == otherContent) :=
  rfl

end MarkupTree
