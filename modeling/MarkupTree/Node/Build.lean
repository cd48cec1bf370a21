import MarkupTree.Attributes.Lemmas
import MarkupTree.Node.Basic

/-! Building nodes. No input is refused: inverted spans are clamped and a tag without a
name gives an element whose name is empty, and the log says so. For one element the notes
come in the order nameless tag, span of the element, span of the tag, attributes. -/
namespace MarkupTree

/-- An element around its children, without attributes yet. The name is read from the
token, whose offsets become the span of the name. -/
def Element.build (token : Tag.Token) (children : List Node) (start stop : Nat) : Logged Element := do
  let text := Tag.nameOf token.raw
  Logged.noteIf text.isEmpty (.namelessTag token.raw token.start token.stop)
  let span ← Span.clamp start stop
  let name ← Tag.Name.build text token.start token.stop
  return ⟨span, name, ∅, children⟩

/-- Writes an attribute. Writing a key again is noted, whatever the value. -/
def Element.set (element : Element) (key value : String) : Logged Element := do
  Logged.noteIf (element.attributes.contains key) (.overwrittenAttribute element.name.text key)
  return { element with attributes := element.attributes.insert key value }

/-- Writes attributes one after the other, so the last write of a key wins. -/
def Element.setAll (element : Element) : List (String × String) → Logged Element
  | [] => return element
  | (key, value) :: rest => do (← element.set key value).setAll rest

def Node.buildText (content : String) (start stop : Nat) : Logged Node :=
  return .text (← Span.clamp start stop) content

def Node.buildComment (content : String) (start stop : Nat) : Logged Node :=
  return .comment (← Span.clamp start stop) content

def Base.build (kind : Kind) (children : List Node) (start stop : Nat) : Logged Base :=
  return ⟨kind, ← Span.clamp start stop, children⟩

namespace Element

@[simp] theorem value_build (token : Tag.Token) (children : List Node) (start stop : Nat) :
    (build token children start stop).value =
      ⟨.ofOffsets start stop, ⟨Tag.nameOf token.raw, .ofOffsets token.start token.stop⟩, ∅, children⟩ := by
  simp [build]

theorem events_build (token : Tag.Token) (children : List Node) (start stop : Nat) :
    (build token children start stop).events =
      (if (Tag.nameOf token.raw).isEmpty then [.namelessTag token.raw token.start token.stop] else []) ++
        (Span.clamp start stop).events ++ (Span.clamp token.start token.stop).events := by
  simp [build]

@[simp] theorem value_set (element : Element) (key value : String) :
    (element.set key value).value = { element with attributes := element.attributes.insert key value } := by
  simp [set]

theorem events_set (element : Element) (key value : String) :
    (element.set key value).events =
      if element.attributes.contains key then [.overwrittenAttribute element.name.text key] else [] := by
  simp [set]

@[simp] theorem setAll_nil (element : Element) : element.setAll [] = pure element := rfl

@[simp] theorem setAll_cons (element : Element) (pair : String × String) (rest : List (String × String)) :
    element.setAll (pair :: rest) = element.set pair.1 pair.2 >>= (·.setAll rest) := rfl

end Element

/-- Recipes for trees, with the offsets and the tag texts as they came in. A tree is built from
the leaves up, so the log of a subtree stands before that of its element. A draft may take over a
node that is built already; nothing is noted for that again. -/
inductive Draft where
  | text (content : String) (start stop : Nat)
  | comment (content : String) (start stop : Nat)
  | element (token : Tag.Token) (start stop : Nat) (children : List Draft) (writes : List (String × String))
  | existing (node : Node)

mutual

def Draft.build : Draft → Logged Node
  | .text content start stop => Node.buildText content start stop
  | .comment content start stop => Node.buildComment content start stop
  | .element token start stop children writes => do
    let element ← Element.build token (← Draft.buildAll children) start stop
    return .element (← element.setAll writes)
  | .existing node => return node

def Draft.buildAll : List Draft → Logged (List Node)
  | [] => return []
  | first :: rest => do
    let node ← first.build
    return node :: (← Draft.buildAll rest)

end

end MarkupTree
