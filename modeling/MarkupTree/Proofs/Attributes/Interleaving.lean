import Mathlib.Data.List.TFAE
import Mathlib.Tactic.TFAE
import MarkupTree.Proofs.Attributes.Summary
import MarkupTree.Proofs.Node.Hash

/-! Attributes under interleaved writes. Only writes of the same key see each other: attributes are
equal where each key was written last with the same value, and then no hash tells them apart. So writes
may come in any order that leaves those of each key in theirs. -/
namespace MarkupTree.Attributes

/-- The writes of one key, in their order. -/
def writesOf (writes : List (String × String)) (key : String) : List (String × String) :=
  writes.filter (·.1 = key)

variable {a b : Attributes} {first second : List (String × String)}

theorem lookup_eq_find? (entries : List (String × String)) (key : String) :
    entries.lookup key = (entries.find? (·.1 = key)).map Prod.snd := by
  induction entries with
  | nil => rfl
  | cons entry rest ih =>
    rw [lookup_cons, List.find?_cons, ih]
    by_cases here : entry.1 = key
    · simp [here]
    · simp [here, Ne.symm here]

theorem lastValue?_eq_getLast? (writes : List (String × String)) (key : String) :
    lastValue? writes key = (writesOf writes key).getLast?.map Prod.snd := by
  rw [lastValue?, lookup_eq_find?, writesOf, List.getLast?_filter]

/-- Every write belongs to its key, so lists that agree key by key hold the same writes. -/
theorem perm_of_writesOf_eq (kept : ∀ key, writesOf first key = writesOf second key) : first.Perm second := by
  rw [List.perm_iff_count]
  intro write
  have own (writes : List (String × String)) : (writesOf writes write.1).count write = writes.count write :=
    List.count_filter (decide_eq_true rfl)
  calc first.count write = (writesOf first write.1).count write := (own first).symm
    _ = (writesOf second write.1).count write := by rw [kept]
    _ = second.count write := own second

theorem ofList_beq_ofList_iff :
    (ofList first == ofList second) = true ↔ ∀ key, lastValue? first key = lastValue? second key := by
  rw [beq_iff_forall_get?]
  simp only [get?_ofList]

theorem ofList_beq_ofList_of_writesOf_eq (kept : ∀ key, writesOf first key = writesOf second key) :
    (ofList first == ofList second) = true := by
  apply ofList_beq_ofList_iff.mpr
  intro key
  rw [lastValue?_eq_getLast?, lastValue?_eq_getLast?, kept]

/-- No hash tells the attributes apart, whatever digest stands for an entry. -/
structure HashedAlike (a b : Attributes) : Prop where
  hash : hash a = hash b
  writes : ∀ digest, a.writes digest = b.writes digest

theorem hashedAlike_of_beq (same : (a == b) = true) : a.HashedAlike b where
  hash := LawfulHashable.hash_eq a b same
  writes := fun digest => writes_eq_of_beq digest same

/-- Attributes are equal when all readers agree, when the last writes of each key do, or when one
side's entries are the other's in some order; then they are hashed alike. It is enough that the writes
of each key are the same in the same order, however those of different keys interleave. -/
theorem ofList_beq_is_extensional (first second : List (String × String)) :
    [(ofList first == ofList second) = true,
      ∀ key, (ofList first).get? key = (ofList second).get? key,
      ∀ key, lastValue? first key = lastValue? second key,
      (ofList second).toList.Perm (ofList first).toList].TFAE ∧
    ((ofList first == ofList second) = true → (ofList first).HashedAlike (ofList second)) ∧
    ((∀ key, writesOf first key = writesOf second key) → first.Perm second ∧
      (ofList first == ofList second) = true ∧ (ofList first).HashedAlike (ofList second)) := by
  refine ⟨?_, hashedAlike_of_beq, ?_⟩
  · tfae_have 1 ↔ 2 := beq_iff_forall_get?
    tfae_have 1 ↔ 3 := ofList_beq_ofList_iff
    tfae_have 1 ↔ 4 := beq_iff_perm.trans List.perm_comm
    tfae_finish
  · intro kept
    have equal := ofList_beq_ofList_of_writesOf_eq kept
    exact ⟨perm_of_writesOf_eq kept, equal, hashedAlike_of_beq equal⟩

end MarkupTree.Attributes
