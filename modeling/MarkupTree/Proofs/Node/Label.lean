import MarkupTree.Proofs.Attributes.Interleaving

/-! What a label depends on. Keys are read apart from one another, so however an element was
written to, its label tells its name and the last values of two keys, and nothing else shows in it. -/
namespace MarkupTree.Element

/-- The element of a tag around its children, after attributes were written one after the other. -/
def written (token : Tag.Token) (children : List Node) (start stop : Nat) (writes : List (String × String)) :
    Element :=
  ((build token children start stop).value.setAll writes).value

variable {token other : Tag.Token} {children inside : List Node} {start stop first last : Nat}
  {writes others : List (String × String)}

theorem attribute?_setAll (e : Element) (writes : List (String × String)) (key : String) :
    (e.setAll writes).value.attribute? key = (Attributes.lastValue? writes key).or (e.attribute? key) := by
  rw [attribute?, value_setAll]
  exact Attributes.get?_insertAll e.attributes writes key

/-- A new element has no attributes, so its readers find what was written last. -/
theorem attribute?_written (key : String) :
    (written token children start stop writes).attribute? key = Attributes.lastValue? writes key := by
  have unwritten : (build token children start stop).value.attribute? key = none := by
    rw [value_build]
    exact Attributes.get?_empty key
  rw [written, attribute?_setAll, unwritten, Option.or_none]

theorem name_written : (written token children start stop writes).name.text = Tag.nameOf token.raw := by
  rw [written, value_setAll, value_build]

theorem label_written :
    (written token children start stop writes).label =
      Tag.nameOf token.raw ++ (Attributes.lastValue? writes "id").elim "" ("#" ++ ·) ++
        (Attributes.lastValue? writes "class").elim "" ("." ++ ·) := by
  rw [label, id?, class?, attribute?_written, attribute?_written, name_written]

theorem label_written_congr (names : Tag.nameOf token.raw = Tag.nameOf other.raw)
    (ids : (Attributes.writesOf writes "id").getLast? = (Attributes.writesOf others "id").getLast?)
    (classes : (Attributes.writesOf writes "class").getLast? = (Attributes.writesOf others "class").getLast?) :
    (written token children start stop writes).label = (written other inside first last others).label := by
  simp only [label_written, Attributes.lastValue?_eq_getLast?, names, ids, classes]

theorem writesOf_append_cons_of_ne {key asked : String} (apart : key ≠ asked) (value : String)
    (front back : List (String × String)) :
    Attributes.writesOf (front ++ (key, value) :: back) asked = Attributes.writesOf (front ++ back) asked := by
  simp [Attributes.writesOf, apart]

/-- The label is the name of the tag with the last value of `id` and then that of `class`, as far as
they were written. So two elements with one name have one label if those keys were last written
alike, and a write of any other key may come anywhere or be left out. -/
theorem label_tells_last_writes (token : Tag.Token) (children : List Node) (start stop : Nat)
    (writes : List (String × String)) :
    (written token children start stop writes).label =
      Tag.nameOf token.raw ++ (Attributes.lastValue? writes "id").elim "" ("#" ++ ·) ++
        (Attributes.lastValue? writes "class").elim "" ("." ++ ·) ∧
    (∀ other inside first last others, Tag.nameOf token.raw = Tag.nameOf other.raw →
      (Attributes.writesOf writes "id").getLast? = (Attributes.writesOf others "id").getLast? →
      (Attributes.writesOf writes "class").getLast? = (Attributes.writesOf others "class").getLast? →
      (written token children start stop writes).label = (written other inside first last others).label) ∧
    ∀ front key value back, writes = front ++ (key, value) :: back → key ≠ "id" → key ≠ "class" →
      (written token children start stop writes).label =
        (written token children start stop (front ++ back)).label := by
  refine ⟨label_written, fun _ _ _ _ _ => label_written_congr, ?_⟩
  rintro front key value back rfl notId notClass
  apply label_written_congr rfl
  · rw [writesOf_append_cons_of_ne notId]
  · rw [writesOf_append_cons_of_ne notClass]

theorem label_tells_last_writes_of_capitals :
    let writes := [("ID", "1"), ("class", "a b"), ("id", "x"), ("class", "#c."), ("Id", "z"), ("id", "y")]
    let others := [("id", "y"), ("Class", "d"), ("class", "#c.")]
    (written ⟨"<Div id=\"q\">", 3, 1⟩ [] 0 9 writes).label = "Div#y.#c." ∧
      (written ⟨"<Div/>", 0, 6⟩ [.text ⟨6, 7⟩ "x"] 9 4 others).label = "Div#y.#c." := by
  intro writes others
  obtain ⟨label, alike, _⟩ := label_tells_last_writes ⟨"<Div id=\"q\">", 3, 1⟩ [] 0 9 writes
  have told := label.trans (by decide +kernel : _ = "Div#y.#c.")
  have same := alike ⟨"<Div/>", 0, 6⟩ [.text ⟨6, 7⟩ "x"] 9 4 others (by decide +kernel) (by decide +kernel)
    (by decide +kernel)
  exact ⟨told, same.symm.trans told⟩

end MarkupTree.Element
