import MarkupTree.Hash
import MarkupTree.Node.Equality

/-! Hashes of trees that agree with their equality. Attributes count in any order: each
entry gives a digest of its own, and only the number of entries and the sum of the
digests, modulo 2^64, are written. The digest of an entry is left open in the writes. -/
namespace MarkupTree

def Kind.index : Kind → Nat
  | .element => 0
  | .text => 1
  | .comment => 2

def Span.writes (span : Span) : List HashWrite := [.number span.start, .number span.stop]

def Tag.Name.writes (name : Tag.Name) : List HashWrite := .text name.text :: name.span.writes

def Attributes.sum (digest : String → String → UInt64) (attributes : Attributes) : UInt64 :=
  attributes.entries.foldl (fun total entry => total + digest entry.1 entry.2) 0

def Attributes.writes (digest : String → String → UInt64) (attributes : Attributes) : List HashWrite :=
  [.number attributes.size, .word (attributes.sum digest)]

/-- The writes of what nodes share, around those of the children. -/
def Base.writesAround (base : Base) (children : List HashWrite) : List HashWrite :=
  .number base.kind.index :: base.span.writes ++ .number base.children.length :: children

mutual

def Element.writes (digest : String → String → UInt64) (element : Element) : List HashWrite :=
  match element with
  | ⟨_, _, _, children⟩ =>
    element.base.writesAround (Node.forestWrites digest children) ++
      .text element.name.text :: element.attributes.writes digest

/-- The kind of the node, what nodes of all kinds share, then its own part. -/
def Node.writes (digest : String → String → UInt64) : Node → List HashWrite
  | .element element => .number Kind.element.index :: element.writes digest
  | .text span content => .number Kind.text.index :: Base.writesAround ⟨.text, span, []⟩ [] ++ [.text content]
  | .comment span content =>
    .number Kind.comment.index :: Base.writesAround ⟨.comment, span, []⟩ [] ++ [.text content]

def Node.forestWrites (digest : String → String → UInt64) : List Node → List HashWrite
  | [] => []
  | first :: rest => first.writes digest ++ Node.forestWrites digest rest

end

def Base.writes (digest : String → String → UInt64) (base : Base) : List HashWrite :=
  base.writesAround (Node.forestWrites digest base.children)

def entryDigest (key value : String) : UInt64 := HashWrite.digest [.text key, .text value]

instance : Hashable Tag.Name := ⟨fun name => HashWrite.digest name.writes⟩

instance : Hashable Attributes := ⟨fun attributes => HashWrite.digest (attributes.writes entryDigest)⟩

instance : Hashable Base := ⟨fun base => HashWrite.digest (base.writes entryDigest)⟩

instance : Hashable Element := ⟨fun element => HashWrite.digest (element.writes entryDigest)⟩

instance : Hashable Node := ⟨fun node => HashWrite.digest (node.writes entryDigest)⟩

theorem Element.writes_eq (digest : String → String → UInt64) (e : Element) :
    e.writes digest = e.base.writes digest ++ .text e.name.text :: e.attributes.writes digest := by
  cases e
  rfl

theorem Node.writes_element (digest : String → String → UInt64) (e : Element) :
    (Node.element e).writes digest = .number Kind.element.index :: e.writes digest := rfl

end MarkupTree
