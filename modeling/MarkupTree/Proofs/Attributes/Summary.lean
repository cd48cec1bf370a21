import Mathlib.Data.List.Induction
import MarkupTree.Proofs.Attributes.Equality
import MarkupTree.Proofs.Attributes.History

/-! Attributes in closed form. What a sequence of writes leaves behind is told by the sequence alone:
each key where it was first written, with the value that was written last. A write gives back the value
of the last write of its key before it. -/
namespace MarkupTree.Attributes

/-- The value that the last write of the key gave it. -/
def lastValue? (writes : List (String × String)) (key : String) : Option String := writes.reverse.lookup key

/-- The keys in the order of their first writes. -/
def writtenKeys (writes : List (String × String)) : List String := (writes.map Prod.fst).eraseDups

/-- Each key once, where it was written first, with the value that was written last. -/
def summary (writes : List (String × String)) : List (String × String) :=
  (writtenKeys writes).filterMap fun key => (lastValue? writes key).map (key, ·)

/-- Writes one after the other, with the values that they give back. -/
def exchangeAll (attributes : Attributes) : List (String × String) → List (Option String) × Attributes
  | [] => ([], attributes)
  | (key, value) :: rest =>
    let (old, next) := attributes.exchange key value
    let (olds, last) := next.exchangeAll rest
    (old :: olds, last)

variable {attributes : Attributes} {writes : List (String × String)}

theorem exchangeAll_cons (attributes : Attributes) (write : String × String) (rest : List (String × String)) :
    attributes.exchangeAll (write :: rest) =
      (attributes.get? write.1 :: ((attributes.insert write.1 write.2).exchangeAll rest).1,
        ((attributes.insert write.1 write.2).exchangeAll rest).2) := rfl

/-- A later write of a key hides an earlier one, which hides what stood before. -/
theorem lastValue?_cons_or (attributes : Attributes) (write : String × String) (rest : List (String × String))
    (key : String) :
    (lastValue? (write :: rest) key).or (attributes.get? key) =
      (lastValue? rest key).or ((attributes.insert write.1 write.2).get? key) := by
  rw [lastValue?, List.reverse_cons, List.lookup_append, lookup_cons, List.lookup_nil, Option.or_assoc, get?_insert]
  split <;> rfl

theorem ofList_append_singleton (writes : List (String × String)) (write : String × String) :
    ofList (writes ++ [write]) = (ofList writes).insert write.1 write.2 := by
  rw [ofList, insertAll, List.foldl_append]
  rfl

/-- The last write of a key decides what is read under it. -/
theorem get?_insertAll (attributes : Attributes) (writes : List (String × String)) (key : String) :
    (attributes.insertAll writes).get? key = (lastValue? writes key).or (attributes.get? key) := by
  induction writes generalizing attributes with
  | nil => rfl
  | cons write rest ih => rw [insertAll_cons, ih, lastValue?_cons_or]

theorem get?_ofList (writes : List (String × String)) (key : String) :
    (ofList writes).get? key = lastValue? writes key := by
  rw [ofList, get?_insertAll, get?_empty, Option.or_none]

theorem mem_writtenKeys {key : String} : key ∈ writtenKeys writes ↔ key ∈ writes.map Prod.fst :=
  List.mem_eraseDups

theorem writtenKeys_append_singleton (writes : List (String × String)) (write : String × String) :
    writtenKeys (writes ++ [write]) =
      if write.1 ∈ writtenKeys writes then writtenKeys writes else writtenKeys writes ++ [write.1] := by
  have last : writtenKeys (writes ++ [write]) =
      writtenKeys writes ++ ([write.1].removeAll (writes.map Prod.fst)).eraseDups := by
    rw [writtenKeys, List.map_append, List.eraseDups_append]
    rfl
  rw [last, List.cons_removeAll, List.nil_removeAll]
  by_cases known : write.1 ∈ writes.map Prod.fst
  · simp [known, mem_writtenKeys.mpr known]
  · simp [known, mt mem_writtenKeys.mp known, List.eraseDups_cons]

/-- A key stands where it was written first, whatever is written later. -/
theorem keys_ofList (writes : List (String × String)) :
    (ofList writes).entries.map Prod.fst = writtenKeys writes := by
  induction writes using List.reverseRecOn with
  | nil => rfl
  | append_singleton writes write ih =>
    have keys := keys_insertEntry write.1 write.2 (ofList writes).entries
    rw [ih, ← writtenKeys_append_singleton] at keys
    rw [ofList_append_singleton]
    exact keys

theorem toList_ofList (writes : List (String × String)) : (ofList writes).toList = summary writes := by
  rw [toList, entries_eq_filterMap, keys_ofList, summary]
  simp only [get?_ofList]

example : (ofList [("class", "a"), ("id", "x"), ("class", "b")]).toList = [("class", "b"), ("id", "x")] := by
  decide +kernel

/-- A write gives back what the writes before it have left under its key. -/
theorem exchangeAll_eq (attributes : Attributes) (writes : List (String × String)) :
    attributes.exchangeAll writes =
      (writes.mapIdx fun place write => (lastValue? (writes.take place) write.1).or (attributes.get? write.1),
        attributes.insertAll writes) := by
  induction writes generalizing attributes with
  | nil => rfl
  | cons write rest ih =>
    rw [exchangeAll_cons, ih, insertAll_cons, List.mapIdx_cons]
    simp only [List.take_succ_cons, lastValue?_cons_or]
    rfl

/-- A write gives a value back where it rewrites a key. -/
theorem countP_isSome_exchangeAll (attributes : Attributes) (writes : List (String × String)) :
    (attributes.exchangeAll writes).1.countP Option.isSome =
      (rewrittenKeys (attributes.entries.map Prod.fst) writes).length := by
  induction writes generalizing attributes with
  | nil => rfl
  | cons write rest ih =>
    rw [exchangeAll_cons, rewrittenKeys_insert, List.length_append, ← ih, List.countP_cons, Nat.add_comm]
    congr 1
    rw [contains]
    split <;> rfl

/-- Attributes are the summary of their writes. Their readers read this summary; a write gives back the
value that its key was given last before, so the writes that give none back are the entries in the end; and
the entries written once more give themselves. -/
theorem ofList_is_summary (writes : List (String × String)) :
    (ofList writes).toList = summary writes ∧
    ((ofList writes).toList.map Prod.fst = writtenKeys writes ∧ (writtenKeys writes).Nodup) ∧
    empty.exchangeAll writes =
      (writes.mapIdx fun place write => lastValue? (writes.take place) write.1, ofList writes) ∧
    (∀ key, (ofList writes).get? key = lastValue? writes key ∧
      (ofList writes).get? key = (summary writes).lookup key ∧
      ((ofList writes).contains key = true ↔ key ∈ (summary writes).map Prod.fst)) ∧
    (ofList writes).size = (summary writes).length ∧
    (empty.exchangeAll writes).1.countP Option.isSome + (ofList writes).size = writes.length ∧
    (ofList (ofList writes).toList).toList = (ofList writes).toList := by
  have keys := keys_ofList writes
  have runs := exchangeAll_eq empty writes
  simp only [get?_empty, Option.or_none] at runs
  have counted : (empty.exchangeAll writes).1.countP Option.isSome + (ofList writes).size = writes.length := by
    rw [countP_isSome_exchangeAll, Nat.add_comm]
    exact (empty.size_insertAll_add writes).trans (Nat.zero_add _)
  refine ⟨toList_ofList writes, ⟨keys, keys ▸ (ofList writes).distinct⟩, runs, ?_, ?_, counted, ?_⟩
  · rw [← toList_ofList]
    exact fun key => ⟨get?_ofList writes key, rfl, contains_iff⟩
  · rw [← toList_ofList]
    rfl
  · rw [ofList_toList]

end MarkupTree.Attributes
