import MarkupTree.Proofs.Attributes.History
import MarkupTree.Proofs.Node.Equality
import MarkupTree.Proofs.Source.Characters
import MarkupTree.Proofs.Tag.Grammar

/-! Opening tags read back. A name holds no blank and a written attribute begins with one, so the
name of an element is found again in its opening tag, whatever its characters. Only where nothing
stands between a name in `/` and the closing `>` is that slash taken for the one that closes an
empty element. -/
namespace MarkupTree
namespace Element

/-- The element was built from a tag, and its attributes were written one after the other. -/
def Built (e : Element) : Prop :=
  ∃ token children start stop writes, ((build token children start stop).value.setAll writes).value = e

/-- The element built anew from its opening tag around the same children, wherever the tag may
stand, with its attributes written in their order. -/
def reread (e : Element) (tagStart tagStop : Nat) : Element :=
  ((build ⟨e.openingTag, tagStart, tagStop⟩ e.children e.span.start e.span.stop).value.setAll
    e.attributes.toList).value

variable {e : Element}

theorem Built.unbroken (built : e.Built) : ∀ c ∈ e.name.text.toList, Tag.isBlank c = false := by
  obtain ⟨token, children, start, stop, writes, rfl⟩ := built
  rw [value_setAll, value_build, Tag.toList_nameOf]
  exact fun c => Tag.not_isBlank_of_mem_nameChars

theorem Built.ofOffsets_span (built : e.Built) : Span.ofOffsets e.span.start e.span.stop = e.span := by
  obtain ⟨token, children, start, stop, writes, rfl⟩ := built
  rw [value_setAll, value_build]
  exact Span.ofOffsets_eq_iff.mpr (Span.start_le_stop_ofOffsets start stop)

theorem Built.reread_eq (built : e.Built) (tagStart tagStop : Nat) :
    e.reread tagStart tagStop =
      { e with name := ⟨Tag.nameOf e.openingTag, .ofOffsets tagStart tagStop⟩ } := by
  rw [reread, value_setAll, value_build, built.ofOffsets_span]
  exact congrArg (fun attributes => Element.mk _ _ attributes _) e.attributes.ofList_toList

theorem toList_openingTag (e : Element) :
    e.openingTag.toList =
      '<' :: (e.name.text.toList ++ e.attributes.entries.flatMap Attributes.entryChars ++ ['>']) := by
  simp [openingTag, Attributes.toList_source]

theorem Built.nameOf_openingTag (built : e.Built) (named : e.name.text ≠ "")
    (delimited : e.attributes.entries ≠ [] ∨ ¬ ['/'] <:+ e.name.text.toList) :
    Tag.nameOf e.openingTag = e.name.text := by
  have read : Tag.Reading e.openingTag.toList ['<'] e.name.text.toList
      (e.attributes.entries.flatMap Attributes.entryChars ++ ['>']) := by
    refine ⟨by simp [toList_openingTag], .opened (by simp [toList_openingTag]) (by simp),
      mt String.toList_eq_nil_iff.mp named, built.unbroken, ?_⟩
    -- behind the name stands the closing `>` or the blank before the first attribute
    cases entries : e.attributes.entries with
    | nil => exact .closing (.close (delimited.resolve_left (absurd entries)))
    | cons entry rest => exact .blank rfl
  apply String.toList_injective
  rw [Tag.toList_nameOf, read.nameChars_eq]

theorem Built.nameOf_openingTag_of_slash (built : e.Built) (bare : e.attributes.entries = []) {stem : String}
    (slashed : e.name.text = stem ++ "/") : Tag.nameOf e.openingTag = stem := by
  apply String.toList_injective
  have unbroken := built.unbroken
  rw [slashed, String.toList_append] at unbroken
  rw [Tag.toList_nameOf, toList_openingTag, Tag.nameChars, Tag.dropOpening_cons, bare, List.flatMap_nil,
    List.append_nil, slashed, String.toList_append, List.append_assoc]
  refine (congrArg Tag.firstWord (Tag.dropClosing_append_selfClosing stem.toList)).trans ?_
  exact Tag.firstWord_of_unbroken fun c member => unbroken c (List.mem_append_left _ member)

/-- Read back from the opening tag in front of its source, an element is the same again and reads
the same, unless it has no attributes and its name ends in a slash; that slash is then lost from
the name. -/
theorem reread_openingTag (built : e.Built) (named : e.name.text ≠ "") (tagStart tagStop : Nat) :
    e.source = e.openingTag ++ String.join (e.children.map Node.source) ++ e.closingTag ∧
    (e.attributes.isEmpty = false ∨ ¬ "/".toList <:+ e.name.text.toList →
      Tag.nameOf e.openingTag = e.name.text ∧ (e.reread tagStart tagStop == e) = true ∧
        (e.reread tagStart tagStop).source = e.source) ∧
    (e.attributes.isEmpty = true → ∀ stem, e.name.text = stem ++ "/" →
      Tag.nameOf e.openingTag = stem ∧ (e.reread tagStart tagStop == e) = false) := by
  rw [built.reread_eq, ← Node.forestSource_eq_join]
  refine ⟨source_of_named named, ?_, ?_⟩
  · intro delimited
    have names : Tag.nameOf e.openingTag = e.name.text := by
      refine built.nameOf_openingTag named (delimited.imp_left fun written empty => ?_)
      simp [Attributes.isEmpty, empty] at written
    have children : List.Forall₂ (fun child twin : Node => (child == twin) = true) e.children e.children :=
      List.forall₂_same.mpr fun child _ => Node.beq_equivalence.refl child
    refine ⟨names, beq_iff.mpr ⟨rfl, names, .refl _, children⟩, ?_⟩
    rw [names]
    cases e
    rfl
  · intro bare stem slashed
    have names := built.nameOf_openingTag_of_slash (List.isEmpty_iff.mp bare) slashed
    refine ⟨names, Bool.eq_false_iff.mpr fun same => ?_⟩
    have kept : stem = stem ++ "/" := names.symm.trans ((beq_iff.mp same).2.1.trans slashed)
    simpa using congrArg String.length kept

/-- The element of a tag, with its attributes written. -/
def ofTag (raw : String) (writes : List (String × String)) : Element :=
  ((build ⟨raw, 7, 3⟩ [.text ⟨9, 9⟩ "<"] 7 2).value.setAll writes).value

theorem built_ofTag (raw : String) (writes : List (String × String)) : (ofTag raw writes).Built :=
  ⟨_, _, _, _, writes, rfl⟩

theorem reread_openingTag_of_splicedTag :
    let spliced := ofTag "<</>/ >" [("/", ">"), ("a b", "\""), ("/", "/")]
    let bare := ofTag "<a//" []
    (spliced.Built ∧ spliced.name.text = "</>/" ∧ Tag.nameOf spliced.openingTag = "</>/" ∧
      (spliced.reread 0 5 == spliced) = true ∧ (spliced.reread 0 5).source = spliced.source) ∧
    bare.Built ∧ bare.name.text = "a//" ∧ Tag.nameOf bare.openingTag = "a/" ∧ (bare.reread 0 5 == bare) = false := by
  intro spliced bare
  have name : spliced.name.text = "</>/" := by decide +kernel
  have written : spliced.attributes.isEmpty = false := by decide +kernel
  have splicedBuilt : spliced.Built := built_ofTag _ _
  have bareName : bare.name.text = "a//" := by decide +kernel
  have bareBuilt : bare.Built := built_ofTag _ _
  have read := (reread_openingTag splicedBuilt (by simp [name]) 0 5).2.1 (.inl written)
  rw [name] at read
  refine ⟨⟨splicedBuilt, name, read⟩, bareBuilt, bareName, ?_⟩
  exact (reread_openingTag bareBuilt (by simp [bareName]) 0 5).2.2 (by decide +kernel) "a/" (by decide +kernel)

end Element
end MarkupTree
