import MarkupTree.Node.Source

/-! Source texts as lists of characters, and where a part of one ends: at the first
character that the part cannot hold, or at the marker that closes it. Two texts with the
same parts in front then agree part by part, whatever follows. -/
namespace MarkupTree

/-- A class of characters tells a part from what follows where that does not go on in it. -/
theorem takeWhile_append_of_boundary {p : Char → Bool} {part rest : List Char}
    (inside : ∀ c ∈ part, p c = true) (boundary : ∀ c ∈ rest.head?, p c = false) :
    (part ++ rest).takeWhile p = part := by
  have stop : rest.takeWhile p = [] := by
    cases rest with
    | nil => rfl
    | cons c tail => simp [boundary c rfl]
  rw [List.takeWhile_append_of_pos inside, stop, List.append_nil]

theorem append_inj_of_boundary {p : Char → Bool} {part other rest following : List Char}
    (inside : ∀ c ∈ part, p c = true) (otherInside : ∀ c ∈ other, p c = true)
    (boundary : ∀ c ∈ rest.head?, p c = false) (otherBoundary : ∀ c ∈ following.head?, p c = false)
    (same : part ++ rest = other ++ following) : part = other ∧ rest = following := by
  have parts : part = other := by
    calc part = (part ++ rest).takeWhile p := (takeWhile_append_of_boundary inside boundary).symm
      _ = (other ++ following).takeWhile p := by rw [same]
      _ = other := takeWhile_append_of_boundary otherInside otherBoundary
  subst parts
  exact ⟨rfl, List.append_cancel_left same⟩

/-- A character that neither part holds ends both. -/
theorem append_inj_of_delimiter {delimiter : Char} {part other rest following : List Char}
    (free : delimiter ∉ part) (otherFree : delimiter ∉ other)
    (same : part ++ delimiter :: rest = other ++ delimiter :: following) :
    part = other ∧ rest = following := by
  have free : ∀ c ∈ part, (c != delimiter) = true := fun c member =>
    bne_iff_ne.mpr fun equal => free (equal ▸ member)
  have otherFree : ∀ c ∈ other, (c != delimiter) = true := fun c member =>
    bne_iff_ne.mpr fun equal => otherFree (equal ▸ member)
  have boundary (tail : List Char) : ∀ c ∈ (delimiter :: tail).head?, (c != delimiter) = false := by
    simp
  obtain ⟨parts, rests⟩ := append_inj_of_boundary free otherFree (boundary rest) (boundary following) same
  exact ⟨parts, List.tail_eq_of_cons_eq rests⟩

/-- Read from the end, a character that neither rear part holds ends both. -/
theorem append_inj_of_last_delimiter {delimiter : Char} {part other front before : List Char}
    (free : delimiter ∉ part) (otherFree : delimiter ∉ other)
    (same : front ++ delimiter :: part = before ++ delimiter :: other) : front = before ∧ part = other := by
  have reversed : part.reverse ++ delimiter :: front.reverse = other.reverse ++ delimiter :: before.reverse := by
    simpa using congrArg List.reverse same
  obtain ⟨parts, fronts⟩ := append_inj_of_delimiter (mt List.mem_reverse.mp free)
    (mt List.mem_reverse.mp otherFree) reversed
  exact ⟨List.reverse_inj.mp fronts, List.reverse_inj.mp parts⟩

def commentEnd : List Char := "-->".toList

/-- The end marker cannot begin inside a copy of itself, only with it or after all of it. -/
theorem commentEnd_overlap {gap rest following : List Char}
    (same : commentEnd ++ rest = gap ++ (commentEnd ++ following)) : gap = [] ∨ commentEnd <+: gap := by
  match gap with
  | [] => exact .inl rfl
  | [_] => simp [commentEnd] at same
  | [_, _] => simp [commentEnd] at same
  | a :: b :: c :: gap =>
    simp only [commentEnd, List.cons_append] at same
    obtain ⟨rfl, rfl, rfl, _⟩ := same
    exact .inr ⟨gap, rfl⟩

/-- A comment ends at the first end marker, also where its text ends in dashes. -/
theorem append_inj_of_commentEnd {text other rest following : List Char}
    (unclosed : ¬ commentEnd <:+: text) (otherUnclosed : ¬ commentEnd <:+: other)
    (same : text ++ (commentEnd ++ rest) = other ++ (commentEnd ++ following)) :
    text = other ∧ rest = following := by
  have closes : ∀ {short long gap a b : List Char}, ¬ commentEnd <:+: long → long = short ++ gap →
      commentEnd ++ a = gap ++ (commentEnd ++ b) → gap = [] := by
    intro short long gap a b open_ split same
    refine (commentEnd_overlap same).resolve_right fun starts => open_ ?_
    rw [split]
    exact starts.isInfix.trans (List.suffix_append short gap).isInfix
  have texts : text = other := by
    rcases List.append_eq_append_iff.mp same with ⟨gap, split, tails⟩ | ⟨gap, split, tails⟩
    · rw [split, closes otherUnclosed split tails, List.append_nil]
    · rw [split, closes unclosed split tails, List.append_nil]
  subst texts
  exact ⟨rfl, List.append_cancel_left (List.append_cancel_left same)⟩

namespace Attributes

def entryChars (entry : String × String) : List Char :=
  ' ' :: (entry.1.toList ++ '=' :: '"' :: (entry.2.toList ++ ['"']))

theorem toList_source (attributes : Attributes) :
    attributes.source.toList = attributes.entries.flatMap entryChars := by
  simp only [source, sourceOf, String.toList_join, List.flatMap_map]
  congr 1
  funext entry
  simp [entryChars]

/-- The key ends at its first `=` and the value at its first quote. -/
def EntryClean (entry : String × String) : Prop := '=' ∉ entry.1.toList ∧ '"' ∉ entry.2.toList

theorem entryChars_append_inj {entry other : String × String} {rest following : List Char}
    (clean : EntryClean entry) (otherClean : EntryClean other)
    (same : entryChars entry ++ rest = entryChars other ++ following) : entry = other ∧ rest = following := by
  simp only [entryChars, List.cons_append, List.append_assoc, List.nil_append, List.cons.injEq, true_and] at same
  obtain ⟨keys, same⟩ := append_inj_of_delimiter clean.1 otherClean.1 same
  obtain ⟨values, rests⟩ := append_inj_of_delimiter clean.2 otherClean.2 (List.tail_eq_of_cons_eq same)
  exact ⟨Prod.ext (String.toList_injective keys) (String.toList_injective values), rests⟩

/-- After the attributes comes the end of the tag, and no attribute begins with that. -/
theorem entries_append_inj {entries others : List (String × String)} {rest following : List Char}
    (clean : ∀ entry ∈ entries, EntryClean entry) (otherClean : ∀ entry ∈ others, EntryClean entry)
    (same : entries.flatMap entryChars ++ '>' :: rest = others.flatMap entryChars ++ '>' :: following) :
    entries = others ∧ rest = following := by
  induction entries generalizing others with
  | nil =>
    cases others with
    | nil => exact ⟨rfl, List.tail_eq_of_cons_eq same⟩
    | cons other others => simp [entryChars] at same
  | cons entry entries ih =>
    cases others with
    | nil => simp [entryChars] at same
    | cons other others =>
      rw [List.flatMap_cons, List.flatMap_cons, List.append_assoc, List.append_assoc] at same
      obtain ⟨rfl, tails⟩ := entryChars_append_inj (clean entry (by simp)) (otherClean other (by simp)) same
      obtain ⟨rfl, rests⟩ := ih (fun e member => clean e (by simp [member]))
        (fun e member => otherClean e (by simp [member])) tails
      exact ⟨rfl, rests⟩

/-- A name in front of attributes ends at a blank or at the end of the tag. -/
theorem head?_entries_append {entries : List (String × String)} {rest : List Char} :
    ∀ c ∈ (entries.flatMap entryChars ++ '>' :: rest).head?, c = ' ' ∨ c = '>' := by
  cases entries with
  | nil => simp
  | cons entry entries => simp [entryChars]

end Attributes

/-- An element with what follows it, from its first character on. -/
theorem Element.toList_source_append {e : Element} (named : e.name.text ≠ "") (rest : List Char) :
    e.source.toList ++ rest =
      '<' :: (e.name.text.toList ++ (e.attributes.entries.flatMap Attributes.entryChars ++
        '>' :: ((Node.forestSource e.children).toList ++ '<' :: '/' :: (e.name.text.toList ++ '>' :: rest)))) := by
  simp [source_of_named named, openingTag, closingTag, Attributes.toList_source]

end MarkupTree
