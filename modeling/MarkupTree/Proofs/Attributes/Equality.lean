import Mathlib.Data.List.Nodup
import Mathlib.Data.List.Perm.Subperm
import MarkupTree.Attributes.Lemmas

/-! Equality of attributes. The comparison looks up the entries of one side in the other;
since no key stands twice, that is agreement of all readers, and the entries of one side are
those of the other in some order. -/
namespace MarkupTree.Attributes
variable {a b : Attributes}

theorem nodup_entries (attributes : Attributes) : attributes.entries.Nodup :=
  List.Nodup.of_map Prod.fst attributes.distinct

theorem beq_iff : (a == b) = true ↔ a.size = b.size ∧ a.entries ⊆ b.entries := by
  simp only [beq_eq, Bool.and_eq_true, List.all_eq_true, beq_iff_eq]
  refine and_congr_right fun _ => forall_congr' fun entry => ?_
  rw [get?_eq_some_iff]

/-- Equally many entries leave none of the second side out, as none stands twice. -/
theorem beq_iff_perm : (a == b) = true ↔ a.entries.Perm b.entries := by
  rw [beq_iff]
  constructor
  · rintro ⟨sizes, contained⟩
    exact (List.subperm_of_subset a.nodup_entries contained).perm_of_length_le (Nat.le_of_eq sizes.symm)
  · exact fun reordered => ⟨reordered.length_eq, reordered.subset⟩

theorem get?_eq_of_perm (reordered : a.entries.Perm b.entries) (key : String) : a.get? key = b.get? key := by
  ext value
  rw [get?_eq_some_iff, get?_eq_some_iff, reordered.mem_iff]

theorem perm_iff_forall_get? : a.entries.Perm b.entries ↔ ∀ key, a.get? key = b.get? key := by
  refine ⟨get?_eq_of_perm, fun agree => ?_⟩
  rw [List.perm_ext_iff_of_nodup a.nodup_entries b.nodup_entries]
  intro entry
  rw [← @get?_eq_some_iff a entry.1 entry.2, ← @get?_eq_some_iff b entry.1 entry.2, agree]

theorem beq_iff_forall_get? : (a == b) = true ↔ ∀ key, a.get? key = b.get? key :=
  beq_iff_perm.trans perm_iff_forall_get?

/-- The entries are the keys, in their order, with the values that a reader finds. -/
theorem entries_eq_filterMap (attributes : Attributes) :
    attributes.entries =
      (attributes.entries.map Prod.fst).filterMap fun key => (attributes.get? key).map (key, ·) := by
  have found : ∀ entry ∈ attributes.entries, (attributes.get? entry.1).map (entry.1, ·) = some entry :=
    fun entry member => congrArg (Option.map _) (get?_eq_some_iff.mpr member)
  calc attributes.entries = attributes.entries.filterMap some := List.filterMap_some.symm
    _ = attributes.entries.filterMap fun entry => (attributes.get? entry.1).map (entry.1, ·) :=
      (List.filterMap_congr found).symm
    _ = _ := by rw [List.filterMap_map]; rfl

/-- Attributes that read alike are listed alike once their keys come in the same order. -/
theorem entries_eq_of_perm {a b : Attributes} (reordered : a.entries.Perm b.entries)
    (keys : a.entries.map Prod.fst = b.entries.map Prod.fst) : a.entries = b.entries := by
  rw [a.entries_eq_filterMap, b.entries_eq_filterMap, keys]
  simp only [get?_eq_of_perm reordered]

end MarkupTree.Attributes
