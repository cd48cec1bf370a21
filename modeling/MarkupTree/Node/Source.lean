import MarkupTree.Node.Basic

/-! Trees as source text. Nothing is escaped. An element whose tag had no name cannot be
written, so neither it nor anything below it appears in the text. -/
namespace MarkupTree

namespace Attributes

/-- Attributes as they are written in a tag, one after the other. -/
def sourceOf (entries : List (String × String)) : String :=
  String.join (entries.map fun entry => " " ++ entry.1 ++ "=\"" ++ entry.2 ++ "\"")

def source (attributes : Attributes) : String := sourceOf attributes.entries

@[simp] theorem sourceOf_nil : sourceOf [] = "" := String.join_nil

@[simp] theorem sourceOf_cons (entry : String × String) (rest : List (String × String)) :
    sourceOf (entry :: rest) = " " ++ entry.1 ++ "=\"" ++ entry.2 ++ "\"" ++ sourceOf rest :=
  String.join_cons

@[simp] theorem sourceOf_append (front back : List (String × String)) :
    sourceOf (front ++ back) = sourceOf front ++ sourceOf back := by
  rw [sourceOf, List.map_append, String.join_append]
  rfl

end Attributes

namespace Element

def openingTag (element : Element) : String :=
  "<" ++ element.name.text ++ element.attributes.source ++ ">"

def closingTag (element : Element) : String := "</" ++ element.name.text ++ ">"

end Element

mutual

def Element.source (element : Element) : String :=
  match element with
  | ⟨_, name, _, children⟩ =>
    if name.text.isEmpty then ""
    else element.openingTag ++ Node.forestSource children ++ element.closingTag

def Node.source : Node → String
  | .element element => element.source
  | .text _ content => content
  | .comment _ content => "<!--" ++ content ++ "-->"

def Node.forestSource : List Node → String
  | [] => ""
  | first :: rest => first.source ++ Node.forestSource rest

end

instance : ToString Node := ⟨Node.source⟩

instance : ToString Element := ⟨Element.source⟩

namespace Node

@[simp] theorem source_element (e : Element) : (Node.element e).source = e.source := rfl

@[simp] theorem source_text (span : Span) (content : String) : (Node.text span content).source = content := rfl

@[simp] theorem source_comment (span : Span) (content : String) :
    (Node.comment span content).source = "<!--" ++ content ++ "-->" := rfl

@[simp] theorem forestSource_nil : forestSource [] = "" := rfl

@[simp] theorem forestSource_cons (first : Node) (rest : List Node) :
    forestSource (first :: rest) = first.source ++ forestSource rest := rfl

/-- Siblings are written one after the other, with nothing between them. -/
theorem forestSource_eq_join (forest : List Node) : forestSource forest = String.join (forest.map source) := by
  induction forest with
  | nil => exact String.join_nil.symm
  | cons first rest ih => rw [forestSource_cons, ih, List.map_cons, String.join_cons]

theorem forestSource_append (first second : List Node) :
    forestSource (first ++ second) = forestSource first ++ forestSource second := by
  rw [forestSource_eq_join, List.map_append, String.join_append, ← forestSource_eq_join, ← forestSource_eq_join]

end Node

namespace Element

theorem source_eq (e : Element) :
    e.source = if e.name.text.isEmpty then "" else e.openingTag ++ Node.forestSource e.children ++ e.closingTag := by
  cases e
  rfl

theorem source_of_named {e : Element} (named : e.name.text ≠ "") :
    e.source = e.openingTag ++ Node.forestSource e.children ++ e.closingTag := by
  rw [source_eq, if_neg (mt String.isEmpty_iff.mp named)]

theorem source_of_nameless {e : Element} (nameless : e.name.text = "") : e.source = "" := by
  rw [source_eq, if_pos (String.isEmpty_iff.mpr nameless)]

end Element
end MarkupTree
