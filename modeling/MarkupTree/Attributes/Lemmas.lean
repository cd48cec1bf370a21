import MarkupTree.Attributes.Basic

/-! What a reader of attributes sees after each write, and that equality is agreement
of all readers. -/
namespace MarkupTree.Attributes

theorem lookup_cons (entry : String × String) (rest : List (String × String)) (key : String) :
    List.lookup key (entry :: rest) = if key = entry.1 then some entry.2 else rest.lookup key := by
  rw [List.lookup_cons]
  split <;> simp_all

theorem lookup_insertEntry (key value other : String) (entries : List (String × String)) :
    (insertEntry key value entries).lookup other =
      if other = key then some value else entries.lookup other := by
  induction entries with
  | nil => simp [insertEntry]
  | cons entry rest ih =>
    unfold insertEntry
    by_cases here : entry.1 = key
    · by_cases same : other = key <;> simp [here, same, lookup_cons]
    · rw [if_neg here, lookup_cons, lookup_cons, ih]
      by_cases same : other = key
      · simp [same, Ne.symm here]
      · simp [same]

@[simp] theorem get?_empty (key : String) : empty.get? key = none := rfl

theorem get?_insert (attributes : Attributes) (key value other : String) :
    (attributes.insert key value).get? other =
      if other = key then some value else attributes.get? other :=
  lookup_insertEntry key value other attributes.entries

@[simp] theorem get?_insert_self (attributes : Attributes) (key value : String) :
    (attributes.insert key value).get? key = some value := by
  simp [get?_insert]

theorem lookup_eq_some_iff {entries : List (String × String)} (distinct : (entries.map Prod.fst).Nodup)
    {key value : String} : entries.lookup key = some value ↔ (key, value) ∈ entries := by
  induction entries with
  | nil => simp
  | cons entry rest ih =>
    obtain ⟨name, text⟩ := entry
    simp only [List.map_cons, List.nodup_cons] at distinct
    by_cases here : key = name
    · subst here
      have gone : (key, value) ∉ rest := fun member => distinct.1 (List.mem_map_of_mem (f := Prod.fst) member)
      simp [gone, eq_comm]
    · simp [lookup_cons, here, ih distinct.2]

theorem get?_eq_some_iff {attributes : Attributes} {key value : String} :
    attributes.get? key = some value ↔ (key, value) ∈ attributes.entries :=
  lookup_eq_some_iff attributes.distinct

theorem contains_iff {attributes : Attributes} {key : String} :
    attributes.contains key = true ↔ key ∈ attributes.entries.map Prod.fst := by
  unfold contains
  rw [Option.isSome_iff_exists, List.mem_map]
  exact ⟨fun ⟨value, found⟩ => ⟨(key, value), get?_eq_some_iff.mp found, rfl⟩,
    fun ⟨entry, member, same⟩ => ⟨entry.2, get?_eq_some_iff.mpr (same ▸ member)⟩⟩

theorem size_insert (attributes : Attributes) (key value : String) :
    (attributes.insert key value).size = attributes.size + if attributes.contains key then 0 else 1 := by
  have keys := congrArg List.length (keys_insertEntry key value attributes.entries)
  simp only [List.length_map] at keys
  unfold size insert
  simp only [keys, contains_iff]
  split <;> simp

end MarkupTree.Attributes
