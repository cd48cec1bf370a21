import MarkupTree.Node.Source
import MarkupTree.Proofs.Attributes.History
import MarkupTree.Proofs.Node.Equality

/-! What a write to an attribute does to the source of its element. A new key is written behind the
others, right before the `>` of the opening tag; a known key has its value replaced where it stands.
Nothing else in the text moves, whatever keys, values and children look like. -/
namespace MarkupTree.Element
variable {e : Element} {key value : String}

/-- The opening tag as far as the given attributes, which are the first ones. -/
def tagUpTo (e : Element) (entries : List (String × String)) : String :=
  "<" ++ e.name.text ++ Attributes.sourceOf entries

/-- The source from the `>` of the opening tag on. -/
def afterAttributes (e : Element) : String := ">" ++ String.join (e.children.map Node.source) ++ e.closingTag

theorem openingTag_eq (e : Element) : e.openingTag = e.tagUpTo e.attributes.toList ++ ">" := rfl

theorem source_eq_tagUpTo (named : e.name.text ≠ "") :
    e.source = e.tagUpTo e.attributes.toList ++ e.afterAttributes := by
  rw [source_of_named named, openingTag_eq, afterAttributes, Node.forestSource_eq_join]
  simp only [String.append_assoc]

theorem toList_attributes_set (e : Element) (key value : String) :
    (e.set key value).value.attributes.toList = (e.attributes.insert key value).entries := by
  rw [value_set, Attributes.toList]

theorem source_set (named : e.name.text ≠ "") (key value : String) :
    (e.set key value).value.source =
      e.tagUpTo (e.attributes.insert key value).entries ++ e.afterAttributes := by
  rw [value_set]
  exact source_eq_tagUpTo named

theorem source_set_of_fresh (named : e.name.text ≠ "") (fresh : e.attribute? key = none) (value : String) :
    (e.set key value).value.source =
      e.tagUpTo e.attributes.toList ++ (" " ++ key ++ "=\"" ++ value ++ "\"") ++ e.afterAttributes := by
  rw [source_set named, Attributes.entries_insert_of_fresh fresh, tagUpTo, tagUpTo, Attributes.toList]
  simp [String.append_assoc]

/-- Where the entries split at a key, so does the source at the value written for it. -/
theorem tagUpTo_append_cons (e : Element) (front back : List (String × String)) (key value : String) :
    e.tagUpTo (front ++ (key, value) :: back) ++ e.afterAttributes =
      (e.tagUpTo front ++ " " ++ key ++ "=\"") ++ value ++
        ("\"" ++ Attributes.sourceOf back ++ e.afterAttributes) := by
  simp [tagUpTo, String.append_assoc]

theorem set_again (e : Element) (key value : String) :
    ((e.set key value).value.set key value).value = (e.set key value).value := by
  rw [value_set, value_set, Attributes.insert_of_get?_eq_some (Attributes.get?_insert_self _ _ _)]

/-- A write to an attribute changes the source of a named element at one place: a new attribute is put
in behind the others, in front of the `>` of the opening tag, and for a known key the value written for
it is exchanged. The same write once more changes nothing, and a nameless element stays without source. -/
theorem set_edits_source (e : Element) (key value : String) :
    let written := (e.set key value).value
    let again := (written.set key value).value
    (e.name.text ≠ "" →
      (e.attribute? key = none →
        written.attributes.toList = e.attributes.toList ++ [(key, value)] ∧
        e.openingTag = e.tagUpTo e.attributes.toList ++ ">" ∧
        e.source = e.tagUpTo e.attributes.toList ++ e.afterAttributes ∧
        written.source = e.tagUpTo e.attributes.toList ++
          (" " ++ key ++ "=\"" ++ value ++ "\"") ++ e.afterAttributes) ∧
      ∀ old, e.attribute? key = some old → ∃ front back,
        e.attributes.toList = front ++ (key, old) :: back ∧
        written.attributes.toList = front ++ (key, value) :: back ∧
        e.source = (e.tagUpTo front ++ " " ++ key ++ "=\"") ++ old ++
          ("\"" ++ Attributes.sourceOf back ++ e.afterAttributes) ∧
        written.source = (e.tagUpTo front ++ " " ++ key ++ "=\"") ++ value ++
          ("\"" ++ Attributes.sourceOf back ++ e.afterAttributes)) ∧
    (again.source = written.source ∧ again.attributes.toList = written.attributes.toList ∧
      (again == written) = true ∧ ∀ other : Element, (again == other) = (written == other)) ∧
    (e.name.text = "" → e.source = "" ∧ written.source = "") := by
  intro written again
  have entries : written.attributes.toList = (e.attributes.insert key value).entries :=
    toList_attributes_set e key value
  refine ⟨fun named => ⟨fun fresh => ?_, fun old known => ?_⟩, ?_, fun nameless => ?_⟩
  · rw [entries]
    exact ⟨Attributes.entries_insert_of_fresh fresh value, openingTag_eq e, source_eq_tagUpTo named,
      source_set_of_fresh named fresh value⟩
  · obtain ⟨front, back, split, exchanged⟩ := Attributes.exists_entries_insert_of_known known value
    have before : e.source = e.tagUpTo (front ++ (key, old) :: back) ++ e.afterAttributes :=
      split ▸ source_eq_tagUpTo named
    have after : written.source = e.tagUpTo (front ++ (key, value) :: back) ++ e.afterAttributes :=
      exchanged ▸ source_set named key value
    rw [tagUpTo_append_cons] at before after
    exact ⟨front, back, split, entries.trans exchanged, before, after⟩
  · have same : again = written := set_again e key value
    rw [same]
    refine ⟨rfl, rfl, ?_, fun _ => rfl⟩
    rw [← Node.element_beq_element]
    exact BEq.rfl
  · have stays : written.name = e.name := by simp only [written, value_set]
    exact ⟨source_of_nameless nameless, source_of_nameless (stays ▸ nameless)⟩

end MarkupTree.Element
