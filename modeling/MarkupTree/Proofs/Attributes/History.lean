import MarkupTree.Node.Build

/-! Attributes as the history of their writes. A write either adds an entry at the end or is
noted as the rewriting of a key, so what is stored and what is noted add up to what was
written; where no key is written twice, the entries are the writes themselves. -/
namespace MarkupTree
namespace Attributes

/-- The keys that are written though they stand already, in the order of these writes. -/
def rewrittenKeys (known : List String) : List (String × String) → List String
  | [] => []
  | (key, _) :: rest =>
    if key ∈ known then key :: rewrittenKeys known rest else rewrittenKeys (key :: known) rest

variable {attributes : Attributes} {known other : List String} {writes : List (String × String)}

@[simp] theorem insertAll_cons (attributes : Attributes) (write : String × String)
    (rest : List (String × String)) :
    attributes.insertAll (write :: rest) = (attributes.insert write.1 write.2).insertAll rest := rfl

theorem rewrittenKeys_cons (known : List String) (write : String × String) (rest : List (String × String)) :
    rewrittenKeys known (write :: rest) =
      if write.1 ∈ known then write.1 :: rewrittenKeys known rest else rewrittenKeys (write.1 :: known) rest :=
  rfl

/-- Only which keys are known matters, not in which order they came. -/
theorem rewrittenKeys_congr (same : ∀ key, key ∈ known ↔ key ∈ other) :
    rewrittenKeys known writes = rewrittenKeys other writes := by
  induction writes generalizing known other with
  | nil => rfl
  | cons write rest ih =>
    rw [rewrittenKeys_cons, rewrittenKeys_cons]
    by_cases here : write.1 ∈ known
    · rw [if_pos here, if_pos ((same write.1).mp here), ih same]
    · rw [if_neg here, if_neg (mt (same write.1).mpr here)]
      exact ih fun key => by simp [same]

theorem rewrittenKeys_insert (attributes : Attributes) (write : String × String)
    (rest : List (String × String)) :
    rewrittenKeys (attributes.entries.map Prod.fst) (write :: rest) =
      (if attributes.contains write.1 then [write.1] else []) ++
        rewrittenKeys ((attributes.insert write.1 write.2).entries.map Prod.fst) rest := by
  have keys := keys_insertEntry write.1 write.2 attributes.entries
  simp only [rewrittenKeys_cons, contains_iff, insert, keys]
  split
  · rfl
  · exact rewrittenKeys_congr fun key => by simp [or_comm]

/-- Each write is stored as a further entry or is the rewriting of a key. -/
theorem size_insertAll_add (attributes : Attributes) (writes : List (String × String)) :
    (attributes.insertAll writes).size + (rewrittenKeys (attributes.entries.map Prod.fst) writes).length =
      attributes.size + writes.length := by
  induction writes generalizing attributes with
  | nil => rfl
  | cons write rest ih =>
    have sizes := attributes.size_insert write.1 write.2
    have later := ih (attributes.insert write.1 write.2)
    rw [rewrittenKeys_insert, insertAll_cons, List.length_append, List.length_cons]
    split at sizes
    · rename_i here
      simp only [if_pos here, List.length_singleton]
      omega
    · rename_i fresh
      simp only [if_neg fresh, List.length_nil]
      omega

theorem rewrittenKeys_eq_nil_iff :
    rewrittenKeys known writes = [] ↔ (writes.map Prod.fst).Nodup ∧ ∀ key ∈ writes.map Prod.fst, key ∉ known := by
  induction writes generalizing known with
  | nil => simp [rewrittenKeys]
  | cons write rest ih =>
    rw [rewrittenKeys_cons]
    by_cases here : write.1 ∈ known
    · simp [here]
    · rw [if_neg here, ih, List.map_cons, List.nodup_cons, List.forall_mem_cons]
      simp only [List.mem_cons, not_or]
      constructor
      · rintro ⟨distinct, apart⟩
        exact ⟨⟨fun again => (apart _ again).1 rfl, distinct⟩, here, fun key member => (apart key member).2⟩
      · rintro ⟨⟨fresh, distinct⟩, _, apart⟩
        exact ⟨distinct, fun key member => ⟨fun same => fresh (same ▸ member), apart key member⟩⟩

theorem insertEntry_of_not_mem {entries : List (String × String)} {key : String} (value : String)
    (fresh : key ∉ entries.map Prod.fst) : insertEntry key value entries = entries ++ [(key, value)] := by
  induction entries with
  | nil => rfl
  | cons entry rest ih =>
    rw [List.map_cons, List.mem_cons, not_or] at fresh
    rw [insertEntry, if_neg (Ne.symm fresh.1), ih fresh.2, List.cons_append]

theorem insertEntry_append_cons {key : String} {front : List (String × String)} (ahead : key ∉ front.map Prod.fst)
    (value old : String) (back : List (String × String)) :
    insertEntry key value (front ++ (key, old) :: back) = front ++ (key, value) :: back := by
  induction front with
  | nil => exact if_pos rfl
  | cons entry front ih =>
    rw [List.map_cons, List.mem_cons, not_or] at ahead
    rw [List.cons_append, insertEntry, if_neg (Ne.symm ahead.1), ih ahead.2, List.cons_append]

theorem entries_insert_of_fresh {key : String} (fresh : attributes.get? key = none) (value : String) :
    (attributes.insert key value).entries = attributes.entries ++ [(key, value)] := by
  apply insertEntry_of_not_mem
  intro stands
  have found := contains_iff.mpr stands
  rw [contains, fresh] at found
  contradiction

/-- A key stands at one place only, and there its value is exchanged. -/
theorem exists_entries_insert_of_known {key old : String} (known : attributes.get? key = some old)
    (value : String) :
    ∃ front back, attributes.entries = front ++ (key, old) :: back ∧
      (attributes.insert key value).entries = front ++ (key, value) :: back := by
  obtain ⟨front, back, split, others⟩ := List.lookup_eq_some_iff.mp known
  have ahead : key ∉ front.map Prod.fst := by
    intro member
    obtain ⟨entry, earlier, same⟩ := List.mem_map.mp member
    exact bne_iff_ne.mp (others entry earlier) same.symm
  have exchanged := insertEntry_append_cons ahead value old back
  rw [← split] at exchanged
  exact ⟨front, back, split, exchanged⟩

/-- Fresh keys keep the order in which they were written. -/
theorem entries_insertAll_of_nodup (distinct : ((attributes.entries ++ writes).map Prod.fst).Nodup) :
    (attributes.insertAll writes).entries = attributes.entries ++ writes := by
  induction writes generalizing attributes with
  | nil => exact (List.append_nil _).symm
  | cons write rest ih =>
    have fresh : write.1 ∉ attributes.entries.map Prod.fst := by
      intro stands
      rw [List.map_append, List.nodup_append] at distinct
      exact distinct.2.2 _ stands _ (by simp) rfl
    have entries : (attributes.insert write.1 write.2).entries = attributes.entries ++ [write] :=
      insertEntry_of_not_mem write.2 fresh
    rw [insertAll_cons, ih (by simpa [entries] using distinct), entries, List.append_assoc, List.singleton_append]

theorem entries_ofList_eq_iff : (ofList writes).entries = writes ↔ (writes.map Prod.fst).Nodup := by
  constructor
  · intro same
    exact same ▸ (ofList writes).distinct
  · intro distinct
    exact @entries_insertAll_of_nodup empty writes distinct

/-- Writing the value that stands already changes nothing. -/
theorem insert_of_get?_eq_some {key value : String} (stands : attributes.get? key = some value) :
    attributes.insert key value = attributes := by
  obtain ⟨front, back, split, written⟩ := exists_entries_insert_of_known stands value
  exact Attributes.ext (written.trans split.symm)

/-- Written again in their order, the entries give the same attributes. -/
theorem ofList_toList (attributes : Attributes) : ofList attributes.toList = attributes :=
  Attributes.ext (entries_ofList_eq_iff.mpr attributes.distinct)

end Attributes

namespace Element

theorem value_setAll (e : Element) (writes : List (String × String)) :
    (e.setAll writes).value = { e with attributes := e.attributes.insertAll writes } := by
  induction writes generalizing e with
  | nil =>
    cases e
    rfl
  | cons write rest ih => rw [setAll_cons, Logged.value_bind, ih, value_set, Attributes.insertAll_cons]

theorem events_setAll (e : Element) (writes : List (String × String)) :
    (e.setAll writes).events =
      (Attributes.rewrittenKeys (e.attributes.entries.map Prod.fst) writes).map
        (.overwrittenAttribute e.name.text) := by
  induction writes generalizing e with
  | nil => rfl
  | cons write rest ih =>
    rw [setAll_cons, Logged.events_bind, ih, events_set, value_set, Attributes.rewrittenKeys_insert,
      List.map_append]
    split <;> rfl

end Element
end MarkupTree
