import Mathlib.Data.List.Basic
import Mathlib.Data.List.TakeWhile
import MarkupTree.Proofs.Source.Characters

/-! The grammar of tags that have a name. Before the name stand blanks, behind the `<` where the
tag begins with one; after it the tag closes, ends without closing, or goes on behind a blank. A
tag is read in at most one way, and its name is the one that this reading gives. -/
namespace MarkupTree.Tag

/-- What may stand before the name. A second `<` is not passed over: it begins the name. -/
inductive Lead (raw : List Char) : List Char → Prop where
  | opened {blanks : List Char} (opens : raw.head? = some '<') (blank : ∀ c ∈ blanks, isBlank c = true) :
      Lead raw ('<' :: blanks)
  | bare {blanks : List Char} (unopened : raw.head? ≠ some '<') (blank : ∀ c ∈ blanks, isBlank c = true) :
      Lead raw blanks

/-- How a tag may end directly after the characters `front`, so that none of them belongs to the
end of the tag. -/
inductive Closing (front : List Char) : List Char → Prop where
  | cut (unclosed : ¬ ['>'] <:+ front) : Closing front []
  | close (unslashed : ¬ ['/'] <:+ front) : Closing front ['>']
  | selfClose : Closing front ['/', '>']

/-- What may stand after the name. Behind a blank anything may follow. -/
inductive Tail (name : List Char) : List Char → Prop where
  | closing {rest : List Char} (closes : Closing name rest) : Tail name rest
  | blank {c : Char} {rest : List Char} (blank : isBlank c = true) : Tail name (c :: rest)

/-- A tag taken apart around its name. -/
structure Reading (raw lead name tail : List Char) : Prop where
  whole : raw = lead ++ name ++ tail
  lead : Lead raw lead
  nonempty : name ≠ []
  unbroken : ∀ c ∈ name, isBlank c = false
  tail : Tail name tail

variable {raw chars front name lead tail blanks rest closing : List Char}

/-- A word ends where a blank follows. -/
theorem firstWord_append {word : List Char} (unbroken : ∀ c ∈ word, isBlank c = false) (nonempty : word ≠ [])
    (boundary : ∀ c ∈ rest.head?, isBlank c = true) : firstWord (word ++ rest) = word := by
  have start : (word ++ rest).dropWhile isBlank = word ++ rest := by
    obtain ⟨c, chars, rfl⟩ := List.exists_cons_of_ne_nil nonempty
    exact List.dropWhile_cons_of_neg (by simp [unbroken c])
  rw [firstWord_eq, start]
  exact takeWhile_append_of_boundary (by simpa using unbroken) (by simpa using boundary)

theorem firstWord_of_unbroken {word : List Char} (unbroken : ∀ c ∈ word, isBlank c = false) :
    firstWord word = word := by
  by_cases empty : word = []
  · rw [empty]
    rfl
  · have alone := @firstWord_append [] word unbroken empty (by simp)
    rwa [List.append_nil] at alone

theorem firstWord_blanks_append (blank : ∀ c ∈ blanks, isBlank c = true) (rest : List Char) :
    firstWord (blanks ++ rest) = firstWord rest := by
  rw [firstWord_eq, List.dropWhile_append_of_pos blank, firstWord_eq]

theorem firstWord_eq_nil_iff : firstWord chars = [] ↔ ∀ c ∈ chars, isBlank c = true := by
  rw [← List.dropWhile_eq_nil_iff, firstWord_eq]
  have stops := List.head?_dropWhile_not isBlank chars
  cases remaining : chars.dropWhile isBlank with
  | nil => simp
  | cons c rest =>
    rw [remaining] at stops
    have unblank : isBlank c = false := stops
    simp [unblank]

/-- A text with a word is blanks, the first word and what a blank cuts off. -/
theorem exists_append_firstWord (chars : List Char) :
    ∃ blanks rest, chars = blanks ++ (firstWord chars ++ rest) ∧ (∀ c ∈ blanks, isBlank c = true) ∧
      ∀ c ∈ rest.head?, isBlank c = true := by
  refine ⟨chars.takeWhile isBlank, (chars.dropWhile isBlank).dropWhile (!isBlank ·), ?_, ?_, ?_⟩
  · rw [firstWord_eq, List.takeWhile_append_dropWhile, List.takeWhile_append_dropWhile]
  · exact fun c => List.mem_takeWhile_imp
  · intro c first
    have stops := List.head?_dropWhile_not (!isBlank ·) (chars.dropWhile isBlank)
    rw [Option.mem_def.mp first] at stops
    simpa using stops

theorem dropClosing_of_unclosed (unclosed : ¬ ['>'] <:+ chars) : dropClosing chars = chars := by
  rcases List.eq_nil_or_concat chars with rfl | ⟨before, last, rfl⟩
  · rfl
  · rw [List.concat_eq_append] at unclosed ⊢
    have other : last ≠ '>' := fun same => unclosed (same ▸ List.suffix_append before [last])
    simp [dropClosing, other]

theorem Closing.dropClosing_eq (closes : Closing front closing) : dropClosing (front ++ closing) = front := by
  cases closes with
  | cut unclosed =>
    rw [List.append_nil]
    exact dropClosing_of_unclosed unclosed
  | close unslashed => exact dropClosing_append_close unslashed
  | selfClose => exact dropClosing_append_selfClosing front

theorem exists_closing (chars : List Char) :
    ∃ front closing, Closing front closing ∧ chars = front ++ closing := by
  by_cases closed : ['>'] <:+ chars
  · obtain ⟨front, rfl⟩ := closed
    by_cases slashed : ['/'] <:+ front
    · obtain ⟨stem, rfl⟩ := slashed
      exact ⟨stem, ['/', '>'], .selfClose, by simp⟩
    · exact ⟨front, ['>'], .close slashed, rfl⟩
  · exact ⟨chars, [], .cut closed, (List.append_nil chars).symm⟩

theorem dropClosing_eq_iff :
    dropClosing chars = front ↔ ∃ closing, Closing front closing ∧ chars = front ++ closing := by
  constructor
  · rintro rfl
    obtain ⟨front, closing, closes, whole⟩ := exists_closing chars
    have kept : dropClosing chars = front := whole ▸ closes.dropClosing_eq
    exact ⟨closing, kept.symm ▸ closes, kept.symm ▸ whole⟩
  · rintro ⟨closing, closes, rfl⟩
    exact closes.dropClosing_eq

/-- How a tag may end depends on the last character before. -/
theorem Closing.of_getLast?_eq {other : List Char} (same : front.getLast? = other.getLast?)
    (closes : Closing front closing) : Closing other closing := by
  have last (c : Char) : [c] <:+ front ↔ [c] <:+ other := by
    rw [List.singleton_suffix_iff_getLast?_eq_some, List.singleton_suffix_iff_getLast?_eq_some, same]
  cases closes with
  | cut unclosed => exact .cut (mt (last '>').mpr unclosed)
  | close unslashed => exact .close (mt (last '/').mpr unslashed)
  | selfClose => exact .selfClose

theorem closing_append_iff (before : List Char) (nonempty : front ≠ []) :
    Closing (before ++ front) closing ↔ Closing front closing := by
  have same : (before ++ front).getLast? = front.getLast? := List.getLast?_append_of_ne_nil before nonempty
  exact ⟨.of_getLast?_eq same, .of_getLast?_eq same.symm⟩

/-- The end of a tag is looked for behind its last blank. -/
theorem dropClosing_append_blank {c : Char} (blank : isBlank c = true) (before rest : List Char) :
    dropClosing (before ++ c :: rest) = before ++ c :: dropClosing rest := by
  obtain ⟨front, closing, closes, rfl⟩ := exists_closing rest
  refine dropClosing_eq_iff.mpr ⟨closing, ?_, by rw [closes.dropClosing_eq]; simp⟩
  rw [closes.dropClosing_eq, closing_append_iff before (List.cons_ne_nil c front)]
  by_cases empty : front = []
  · subst empty
    have delimiters : c ≠ '>' ∧ c ≠ '/' := by
      constructor <;> rintro rfl <;> contradiction
    cases closes with
    | cut => exact .cut (by simpa [List.singleton_suffix_iff_getLast?_eq_some] using delimiters.1)
    | close => exact .close (by simpa [List.singleton_suffix_iff_getLast?_eq_some] using delimiters.2)
    | selfClose => exact .selfClose
  · exact (closing_append_iff [c] empty).mpr closes

theorem lead_cons_iff {inner : List Char} :
    Lead ('<' :: inner) lead ↔ ∃ blanks, lead = '<' :: blanks ∧ ∀ c ∈ blanks, isBlank c = true := by
  constructor
  · rintro (⟨_, blank⟩ | ⟨unopened, _⟩)
    · exact ⟨_, rfl, blank⟩
    · exact absurd rfl unopened
  · rintro ⟨blanks, rfl, blank⟩
    exact .opened rfl blank

theorem lead_iff_of_unopened (unopened : raw.head? ≠ some '<') :
    Lead raw lead ↔ ∀ c ∈ lead, isBlank c = true := by
  constructor
  · rintro (⟨opens, _⟩ | ⟨_, blank⟩)
    · exact absurd opens unopened
    · exact blank
  · exact .bare unopened

theorem dropOpening_of_unopened (unopened : raw.head? ≠ some '<') : dropOpening raw = raw := by
  unfold dropOpening
  split
  · simp at unopened
  · rfl

/-- What stands before the rest of a tag is the delimiter that is dropped, with blanks. -/
theorem exists_lead_iff :
    (∃ lead, Lead raw lead ∧ raw = lead ++ rest) ↔
      ∃ blanks, (∀ c ∈ blanks, isBlank c = true) ∧ dropOpening raw = blanks ++ rest := by
  by_cases opens : raw.head? = some '<'
  · obtain ⟨inner, rfl⟩ := List.head?_eq_some_iff.mp opens
    simp only [lead_cons_iff, dropOpening_cons]
    constructor
    · rintro ⟨_, ⟨blanks, rfl, blank⟩, whole⟩
      exact ⟨blanks, blank, List.tail_eq_of_cons_eq whole⟩
    · rintro ⟨blanks, blank, rfl⟩
      exact ⟨_, ⟨blanks, rfl, blank⟩, rfl⟩
  · simp only [lead_iff_of_unopened opens, dropOpening_of_unopened opens]

/-- The grammar gives the name that is read. -/
theorem Reading.nameChars_eq (read : Reading raw lead name tail) : nameChars raw = name := by
  obtain ⟨whole, before, nonempty, unbroken, after⟩ := read
  obtain ⟨blanks, blank, opened⟩ := exists_lead_iff.mp ⟨lead, before, whole.trans (List.append_assoc ..)⟩
  rw [nameChars, opened]
  cases after with
  | closing closes =>
    have closes := (closing_append_iff blanks nonempty).mpr closes
    rw [← List.append_assoc, closes.dropClosing_eq, firstWord_blanks_append blank]
    exact firstWord_of_unbroken unbroken
  | @blank c rest between =>
    rw [← List.append_assoc, dropClosing_append_blank between, List.append_assoc, firstWord_blanks_append blank]
    exact firstWord_append unbroken nonempty (by simpa using between)

/-- A tag with a name can be taken apart around it. -/
theorem exists_reading (named : nameChars raw ≠ []) : ∃ lead tail, Reading raw lead (nameChars raw) tail := by
  obtain ⟨front, closing, closes, inner⟩ := exists_closing (dropOpening raw)
  have name : nameChars raw = firstWord front := by rw [nameChars, inner, closes.dropClosing_eq]
  have unbroken : ∀ c ∈ nameChars raw, isBlank c = false := fun c => not_isBlank_of_mem_nameChars
  rw [name] at named unbroken ⊢
  obtain ⟨blanks, rest, split, blank, boundary⟩ := exists_append_firstWord front
  obtain ⟨lead, before, whole⟩ := exists_lead_iff.mpr
    ⟨blanks, blank, inner.trans (by rw [split, List.append_assoc])⟩
  refine ⟨lead, rest ++ closing, by simpa using whole, before, named, unbroken, ?_⟩
  cases rest with
  | nil =>
    rw [List.append_nil] at split
    exact .closing ((closing_append_iff blanks named).mp (split ▸ closes))
  | cons c rest => exact .blank (boundary c rfl)

theorem nameChars_eq_iff (named : name ≠ []) :
    nameChars raw = name ↔ ∃ lead tail, Reading raw lead name tail := by
  constructor
  · rintro rfl
    exact exists_reading named
  · rintro ⟨lead, tail, read⟩
    exact read.nameChars_eq

/-- Blanks before a character that is none end there. -/
theorem Lead.unique {lead' following : List Char} (before : Lead raw lead) (again : Lead raw lead')
    (boundary : ∀ c ∈ rest.head?, isBlank c = false) (boundary' : ∀ c ∈ following.head?, isBlank c = false)
    (same : lead ++ rest = lead' ++ following) : lead = lead' := by
  by_cases opens : raw.head? = some '<'
  · obtain ⟨inner, rfl⟩ := List.head?_eq_some_iff.mp opens
    obtain ⟨blanks, rfl, blank⟩ := lead_cons_iff.mp before
    obtain ⟨blanks', rfl, blank'⟩ := lead_cons_iff.mp again
    exact congrArg _ (append_inj_of_boundary blank blank' boundary boundary' (List.tail_eq_of_cons_eq same)).1
  · rw [lead_iff_of_unopened opens] at before again
    exact (append_inj_of_boundary before again boundary boundary' same).1

/-- Nothing is left to choose in taking a tag apart. -/
theorem Reading.unique {lead' name' tail' : List Char} (read : Reading raw lead name tail)
    (again : Reading raw lead' name' tail') : lead = lead' ∧ name = name' ∧ tail = tail' := by
  obtain rfl : name = name' := read.nameChars_eq.symm.trans again.nameChars_eq
  have same := read.whole.symm.trans again.whole
  have boundary (rest : List Char) : ∀ c ∈ (name ++ rest).head?, isBlank c = false := by
    intro c first
    rw [List.head?_append_of_ne_nil name read.nonempty] at first
    exact read.unbroken c (List.mem_of_head? first)
  obtain rfl : lead = lead' := by
    rw [List.append_assoc, List.append_assoc] at same
    exact read.lead.unique again.lead (boundary tail) (boundary tail') same
  exact ⟨rfl, rfl, List.append_cancel_left same⟩

theorem Closing.mem (closes : Closing front closing) : closing ∈ [[], ['>'], ['/', '>']] := by
  cases closes <;> simp

/-- Blanks are no part of the end of a tag. -/
theorem closing_of_blank (blank : ∀ c ∈ blanks, isBlank c = true) (ending : closing ∈ [[], ['>'], ['/', '>']]) :
    Closing blanks closing := by
  have apart {c : Char} (delimiter : isBlank c = false) : ¬ [c] <:+ blanks := by
    intro ends
    exact absurd (blank c (ends.subset (List.mem_singleton_self c))) (by simp [delimiter])
  simp only [List.mem_cons, List.not_mem_nil, or_false] at ending
  rcases ending with rfl | rfl | rfl
  · exact .cut (apart rfl)
  · exact .close (apart rfl)
  · exact .selfClose

theorem nameChars_eq_nil_iff :
    nameChars raw = [] ↔
      ∃ lead rest, Lead raw lead ∧ raw = lead ++ rest ∧ rest ∈ [[], ['>'], ['/', '>']] := by
  constructor
  · intro nameless
    obtain ⟨blanks, closing, closes, inner⟩ := exists_closing (dropOpening raw)
    rw [nameChars, inner, closes.dropClosing_eq, firstWord_eq_nil_iff] at nameless
    obtain ⟨lead, before, whole⟩ := exists_lead_iff.mpr ⟨blanks, nameless, inner⟩
    exact ⟨lead, closing, before, whole, closes.mem⟩
  · rintro ⟨lead, rest, before, whole, ending⟩
    obtain ⟨blanks, blank, inner⟩ := exists_lead_iff.mp ⟨lead, before, whole⟩
    rw [nameChars, inner, (closing_of_blank blank ending).dropClosing_eq, firstWord_eq_nil_iff]
    exact blank

/-- The name of a tag is the one by which the grammar takes it apart, in the only way there is. A tag
without a name is blanks between its delimiters, and no name holds a blank. -/
theorem nameOf_eq_iff_reading (raw : String) :
    (∀ name : String, name ≠ "" →
      (nameOf raw = name ↔ ∃ lead tail, Reading raw.toList lead name.toList tail)) ∧
    (∀ lead name tail lead' name' tail', Reading raw.toList lead name tail →
      Reading raw.toList lead' name' tail' → lead = lead' ∧ name = name' ∧ tail = tail') ∧
    (∀ c ∈ (nameOf raw).toList, isBlank c = false) ∧
    (nameOf raw = "" ↔ ∃ lead rest, Lead raw.toList lead ∧ raw.toList = lead ++ rest ∧
      rest ∈ [[], ['>'], ['/', '>']]) := by
  refine ⟨?_, fun _ _ _ _ _ _ read again => read.unique again, ?_, ?_⟩
  · intro name nonempty
    rw [← String.toList_inj, toList_nameOf]
    exact nameChars_eq_iff (mt String.toList_eq_nil_iff.mp nonempty)
  · rw [toList_nameOf]
    exact fun c => not_isBlank_of_mem_nameChars
  · rw [← String.toList_inj, toList_nameOf]
    exact nameChars_eq_nil_iff

theorem nameOf_eq_iff_reading_of_twiceOpened :
    let raw := "<\n<é//>"
    "<é/" ≠ "" ∧ Reading raw.toList ['<', '\n'] "<é/".toList ['/', '>'] ∧ nameOf raw = "<é/" ∧
      ∀ lead name tail, Reading raw.toList lead name tail →
        lead = ['<', '\n'] ∧ name = "<é/".toList ∧ tail = ['/', '>'] := by
  intro raw
  have nonempty : "<é/" ≠ "" := by decide
  have read : Reading raw.toList ['<', '\n'] "<é/".toList ['/', '>'] :=
    ⟨by decide, .opened (by decide) (by simp [isBlank]), by decide, by simp [isBlank], .closing .selfClose⟩
  obtain ⟨names, unique, _, _⟩ := nameOf_eq_iff_reading raw
  exact ⟨nonempty, read, (names _ nonempty).mpr ⟨_, _, read⟩, fun _ _ _ other => unique _ _ _ _ _ _ other read⟩

end MarkupTree.Tag
