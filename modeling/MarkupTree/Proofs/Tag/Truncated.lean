import MarkupTree.Proofs.Tag.Grammar

/-! Tags that are cut off. The name in the front part of a tag can only grow as more of the tag comes
in, and it is settled once a blank stands behind it. One case is apart: the last `/` that was read is
no part of the name any more when the closing `>` is all that follows. -/
namespace MarkupTree.Tag
variable {chars : List Char}

theorem firstWord_cons (c : Char) (rest : List Char) :
    firstWord (c :: rest) = if isBlank c then firstWord rest else c :: rest.takeWhile (!isBlank ·) := by
  by_cases blank : isBlank c <;> simp [firstWord_eq, blank]

/-- A first word goes on, at most. -/
theorem firstWord_prefix_append (chars rest : List Char) : firstWord chars <+: firstWord (chars ++ rest) := by
  induction chars with
  | nil => exact List.nil_prefix
  | cons c chars ih =>
    rw [List.cons_append, firstWord_cons, firstWord_cons]
    split
    · exact ih
    · rw [List.prefix_cons_inj, List.takeWhile_append]
      split
      · exact (List.takeWhile_prefix _).trans (List.prefix_append _ _)
      · exact List.prefix_rfl

/-- One more character that is no blank belongs to the first word, if that has not ended yet. -/
theorem firstWord_append_singleton {c : Char} (unblank : isBlank c = false) (chars : List Char) :
    firstWord (chars ++ [c]) = firstWord chars ∨ firstWord (chars ++ [c]) = firstWord chars ++ [c] := by
  induction chars with
  | nil => exact .inr (firstWord_of_unbroken (by simpa using unblank))
  | cons first chars ih =>
    rw [List.cons_append, firstWord_cons, firstWord_cons]
    split
    · exact ih
    · rw [List.takeWhile_append]
      split
      · rename_i whole
        have unended : chars.takeWhile (!isBlank ·) = chars := (List.takeWhile_prefix _).eq_of_length whole
        exact .inr (by simp [unended, unblank])
      · exact .inl rfl

theorem dropClosing_prefix_self (chars : List Char) : dropClosing chars <+: chars := by
  obtain ⟨front, closing, closes, rfl⟩ := exists_closing chars
  rw [closes.dropClosing_eq]
  exact List.prefix_append front closing

/-- More characters keep what was kept, unless they turn a last `/` into the end of the tag. -/
theorem dropClosing_append (chars rest : List Char) :
    dropClosing chars <+: dropClosing (chars ++ rest) ∨
      rest = ['>'] ∧ ∃ stem, chars = stem ++ ['/'] ∧ dropClosing (chars ++ rest) = stem := by
  by_cases complete : rest = []
  · rw [complete, List.append_nil]
    exact .inl List.prefix_rfl
  obtain ⟨front, closing, closes, whole⟩ := exists_closing (chars ++ rest)
  rw [whole, closes.dropClosing_eq]
  rcases List.append_eq_append_iff.mp whole with ⟨gap, rfl, _⟩ | ⟨gap, rfl, ending⟩
  · exact .inl ((dropClosing_prefix_self chars).trans (List.prefix_append chars gap))
  · cases gap with
    | nil => exact .inl (by simpa using dropClosing_prefix_self front)
    | cons c gap =>
      -- the end of the tag is not all new, so it is `/>` and only its `>` is new
      rw [List.cons_append] at ending
      cases closes with
      | cut => cases ending
      | close =>
        have none : [] = gap ++ rest := (List.cons.inj ending).2
        exact absurd (List.append_eq_nil_iff.mp none.symm).2 complete
      | selfClose =>
        obtain ⟨rfl, last⟩ := List.cons.inj ending
        obtain ⟨rfl, rfl⟩ := (List.append_eq_singleton_iff.mp last.symm).resolve_right fun other => complete other.2
        exact .inr ⟨rfl, front, rfl, rfl⟩

theorem dropOpening_append (nonempty : chars ≠ []) (rest : List Char) :
    dropOpening (chars ++ rest) = dropOpening chars ++ rest := by
  obtain ⟨c, chars, rfl⟩ := List.exists_cons_of_ne_nil nonempty
  by_cases opens : c = '<'
  · subst opens
    rfl
  · rw [dropOpening_of_unopened (by simpa using opens), dropOpening_of_unopened (by simpa using opens)]

/-- The name in the front part of a tag is the front part of its name, or has the slash that the
closing `>` takes from it. -/
theorem nameChars_append (chars rest : List Char) :
    nameChars chars <+: nameChars (chars ++ rest) ∨
      rest = ['>'] ∧ nameChars chars = nameChars (chars ++ rest) ++ ['/'] := by
  by_cases nonempty : chars = []
  · subst nonempty
    exact .inl List.nil_prefix
  rw [nameChars, nameChars, dropOpening_append nonempty]
  rcases dropClosing_append (dropOpening chars) rest with ⟨more, same⟩ | ⟨rfl, stem, inner, kept⟩
  · exact .inl (same ▸ firstWord_prefix_append _ more)
  · rw [kept, inner, dropClosing_of_unclosed (by simp)]
    rcases @firstWord_append_singleton '/' rfl stem with same | longer
    · exact .inl (same ▸ List.prefix_rfl)
    · exact .inr ⟨rfl, longer⟩

theorem Lead.append {lead : List Char} (before : Lead chars lead) (nonempty : chars ≠ []) (rest : List Char) :
    Lead (chars ++ rest) lead := by
  have first : (chars ++ rest).head? = chars.head? := List.head?_append_of_ne_nil chars nonempty
  cases before with
  | opened opens blank => exact .opened (first.trans opens) blank
  | bare unopened blank => exact .bare (first.symm ▸ unopened) blank

/-- A name that a blank ends is the same whatever follows. -/
theorem Reading.append_of_blank {lead name more : List Char} {c : Char} (blank : isBlank c = true)
    (read : Reading chars lead name (c :: more)) (rest : List Char) :
    Reading (chars ++ rest) lead name (c :: (more ++ rest)) := by
  obtain ⟨whole, before, nonempty, unbroken, _⟩ := read
  have given : chars ≠ [] := by
    rw [whole]
    simp
  exact ⟨by simp [whole], before.append given rest, nonempty, unbroken, .blank blank⟩

/-- Cutting a tag off cuts its name off, at most. The name then only has a slash too many where nothing
but the closing `>` was cut off, and where a blank stands behind the name nothing is missing. -/
theorem nameOf_append (text rest : String) :
    ((nameOf text).toList <+: (nameOf (text ++ rest)).toList ∨
      rest = ">" ∧ nameOf text = nameOf (text ++ rest) ++ "/") ∧
    (nameOf text ≠ "" → ∀ lead blank more, isBlank blank = true → Lead text.toList lead →
      text.toList = lead ++ (nameOf text).toList ++ blank :: more → nameOf text = nameOf (text ++ rest)) := by
  constructor
  · have names := nameChars_append text.toList rest.toList
    rw [← String.toList_append, ← toList_nameOf, ← toList_nameOf] at names
    refine names.imp_right fun ⟨last, slashed⟩ => ⟨String.toList_injective last, String.toList_injective ?_⟩
    rw [slashed, String.toList_append]
    rfl
  · intro named lead blank more between before whole
    have read : Reading text.toList lead (nameOf text).toList (blank :: more) :=
      ⟨whole, before, mt String.toList_eq_nil_iff.mp named,
        fun c member => not_isBlank_of_mem_nameChars (toList_nameOf text ▸ member), .blank between⟩
    have later := (read.append_of_blank between rest.toList).nameChars_eq
    rw [← String.toList_append, ← toList_nameOf] at later
    exact String.toList_injective later.symm

theorem nameOf_append_of_blank :
    let text := "<\t<a/ cl"
    nameOf text ≠ "" ∧ isBlank ' ' = true ∧ Lead text.toList ['<', '\t'] ∧
      text.toList = ['<', '\t'] ++ (nameOf text).toList ++ ' ' :: ['c', 'l'] ∧
      nameOf text = nameOf (text ++ "ass=\"/>\"/>") := by
  intro text
  have named : nameOf text ≠ "" := by decide +kernel
  have before : Lead text.toList ['<', '\t'] := .opened (by decide) (by simp [isBlank])
  have whole : text.toList = ['<', '\t'] ++ (nameOf text).toList ++ ' ' :: ['c', 'l'] := by decide +kernel
  exact ⟨named, rfl, before, whole, (nameOf_append text "ass=\"/>\"/>").2 named _ _ _ rfl before whole⟩

end MarkupTree.Tag
