import MarkupTree.Proofs.Source.Characters

/-! What the text of one whole element says about it, whatever stands inside. No reader from the
front could tell where the name ends, as it may hold `>`; but the last `<` of the text is that of
the closing tag, which gives the name, and with the name the rest is read from the front. -/
namespace MarkupTree

/-- There is a name, and no second tag begins in it. -/
structure Tag.Unspliced (name : String) : Prop where
  nonempty : name ≠ ""
  unopened : '<' ∉ name.toList

theorem Tag.unspliced_of_strictNameOf {raw name : String} (read : strictNameOf raw = .ok name) :
    Unspliced name := by
  obtain ⟨_, nonempty, own⟩ := strictNameOf_eq_ok_iff.mp read
  exact ⟨nonempty, fun member => absurd (own '<' member) (by decide)⟩

namespace Element
variable {e other : Element}

/-- The element up to its closing tag, and the closing tag from its `<` on. -/
theorem toList_source_eq_append_closing (named : e.name.text ≠ "") :
    e.source.toList = (e.openingTag ++ Node.forestSource e.children).toList ++
      '<' :: '/' :: (e.name.text.toList ++ ['>']) := by
  rw [source_of_named named, String.toList_append, closingTag]
  simp

theorem name_eq_of_source_eq (unspliced : Tag.Unspliced e.name.text) (otherUnspliced : Tag.Unspliced other.name.text)
    (same : e.source = other.source) : e.name.text = other.name.text := by
  have closing {name : String} (unspliced : Tag.Unspliced name) : '<' ∉ '/' :: (name.toList ++ ['>']) := by
    simp [unspliced.unopened]
  have texts := congrArg String.toList same
  -- from the end: the children may hold any markup, but they stand in front of the last `<`
  rw [toList_source_eq_append_closing unspliced.nonempty,
    toList_source_eq_append_closing otherUnspliced.nonempty] at texts
  have closings := (append_inj_of_last_delimiter (closing unspliced) (closing otherUnspliced) texts).2
  exact String.toList_injective (List.append_cancel_right (List.tail_eq_of_cons_eq closings))

/-- Once the names agree, what is left ends at the same closing tag. -/
theorem inside_eq_of_source_eq (nonempty : e.name.text ≠ "") (names : e.name.text = other.name.text)
    (clean : ∀ entry ∈ e.attributes.entries, Attributes.EntryClean entry)
    (otherClean : ∀ entry ∈ other.attributes.entries, Attributes.EntryClean entry)
    (same : e.source = other.source) :
    e.attributes.entries = other.attributes.entries ∧
      Node.forestSource e.children = Node.forestSource other.children := by
  have texts := congrArg String.toList same
  rw [← List.append_nil e.source.toList, ← List.append_nil other.source.toList, toList_source_append nonempty,
    toList_source_append (names ▸ nonempty), names] at texts
  obtain ⟨entries, insides⟩ := Attributes.entries_append_inj clean otherClean
    (List.append_cancel_left (List.tail_eq_of_cons_eq texts))
  exact ⟨entries, String.toList_injective (List.append_cancel_right insides)⟩

/-- The text of an element determines its name, unless a second tag begins in a name; the strict
reading lets no such name pass. Where the attributes show their ends, it determines these too, and
the joint text of the children, whatever the children are. -/
theorem name_attributes_inside_of_source_eq (unspliced : Tag.Unspliced e.name.text)
    (otherUnspliced : Tag.Unspliced other.name.text) (same : e.source = other.source) :
    e.name.text = other.name.text ∧
    ((∀ entry ∈ e.attributes.entries, Attributes.EntryClean entry) →
      (∀ entry ∈ other.attributes.entries, Attributes.EntryClean entry) →
      e.attributes.entries = other.attributes.entries ∧
        String.join (e.children.map Node.source) = String.join (other.children.map Node.source)) ∧
    ∀ raw name, Tag.strictNameOf raw = .ok name → Tag.Unspliced name := by
  have names := name_eq_of_source_eq unspliced otherUnspliced same
  refine ⟨names, ?_, fun _ _ => Tag.unspliced_of_strictNameOf⟩
  intro clean otherClean
  rw [← Node.forestSource_eq_join, ← Node.forestSource_eq_join]
  exact inside_eq_of_source_eq unspliced.nonempty names clean otherClean same

/-- `<a>/a x=">"><a>/a></a>/a></a>/a>`, around an element or around the text of that element. -/
def imitation (children : List Node) : Element :=
  ⟨⟨0, 33⟩, ⟨"a>/a", ⟨0, 12⟩⟩, .ofList [("x", ">")], children⟩

theorem name_attributes_inside_of_imitation :
    let e := imitation [.element ⟨⟨12, 26⟩, ⟨"a>/a", ⟨12, 18⟩⟩, ∅, []⟩]
    let other := imitation [.text ⟨12, 15⟩ "<a>", .text ⟨15, 26⟩ "/a></a>/a>"]
    Tag.Unspliced e.name.text ∧ e.source = other.source ∧ e.name.text = other.name.text ∧
      String.join (e.children.map Node.source) = String.join (other.children.map Node.source) := by
  intro e other
  have unspliced : Tag.Unspliced e.name.text := ⟨by decide, by decide⟩
  have same : e.source = other.source := by decide +kernel
  have clean : ∀ entry ∈ [("x", ">")], Attributes.EntryClean entry := by
    simp [Attributes.EntryClean]
  obtain ⟨names, inside, _⟩ := name_attributes_inside_of_source_eq unspliced unspliced same
  exact ⟨unspliced, same, names, (inside clean clean).2⟩

end Element
end MarkupTree
