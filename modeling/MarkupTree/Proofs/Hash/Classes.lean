import Mathlib.Data.Set.Card
import MarkupTree.Hash
import MarkupTree.Proofs.Node.Hash

/-! Sets of hashed values up to equality. As equal values have equal hashes, looking only at members
of the same hash finds every equal one. So a set holds one member of each class of what was put in,
the first that came, and its size is the number of classes. -/
namespace MarkupTree

section Classes
variable {α : Type} [BEq α] [EquivBEq α] {a b : α} {values others : List α}

/-- Two values are the same where `==` says so. -/
def sameness (α : Type) [BEq α] [EquivBEq α] : Setoid α where
  r a b := (a == b) = true
  iseqv := ⟨fun _ => BEq.rfl, BEq.symm, BEq.trans⟩

def classOf (value : α) : Quotient (sameness α) := Quotient.mk _ value

/-- The classes of the values under `==`. -/
def classes (values : List α) : Set (Quotient (sameness α)) := {c | c ∈ values.map classOf}

theorem classOf_eq_iff : classOf a = classOf b ↔ (a == b) = true := Quotient.eq

theorem classOf_mem_iff : classOf a ∈ values.map classOf ↔ ∃ value ∈ values, (value == a) = true := by
  simp only [List.mem_map, classOf_eq_iff]

theorem classes_eq_of_perm (reordered : values.Perm others) : classes values = classes others :=
  Set.ext fun _ => (reordered.map classOf).mem_iff

theorem map_classOf_eq_of_forall₂
    (same : List.Forall₂ (fun value other : α => (value == other) = true) values others) :
    values.map classOf = others.map classOf := by
  induction same with
  | nil => rfl
  | cons first _ ih => rw [List.map_cons, List.map_cons, ih, classOf_eq_iff.mpr first]

/-- A list with one value of each class is as long as there are classes. -/
theorem ncard_classes {members : List α} (distinct : (members.map classOf).Nodup) :
    (classes members).ncard = members.length := by
  classical
  have listed : classes members = ((members.map classOf).toFinset : Set (Quotient (sameness α))) :=
    (List.coe_toFinset _).symm
  rw [listed, Set.ncard_coe_finset, List.toFinset_card_of_nodup distinct, List.length_map]

end Classes

namespace HashedSet
variable {α : Type} [BEq α] [Hashable α] {set : HashedSet α} {value : α}

theorem insertAll_cons (set : HashedSet α) (value : α) (rest : List α) :
    set.insertAll (value :: rest) =
      ((set.insert value).1 :: ((set.insert value).2.insertAll rest).1, ((set.insert value).2.insertAll rest).2) :=
  rfl

theorem length_answers_insertAll (set : HashedSet α) (values : List α) :
    (set.insertAll values).1.length = values.length := by
  induction values generalizing set with
  | nil => rfl
  | cons value rest ih => rw [insertAll_cons, List.length_cons, ih, List.length_cons]

variable [EquivBEq α] [LawfulHashable α]

theorem contains_iff : set.contains value = true ↔ classOf value ∈ set.members.map classOf := by
  rw [classOf_mem_iff, contains, List.any_eq_true]
  refine exists_congr fun member => and_congr_right fun _ => ?_
  rw [Bool.and_eq_true, beq_iff_eq]
  exact and_iff_right_of_imp (LawfulHashable.hash_eq member value)

theorem insert_of_mem (known : classOf value ∈ set.members.map classOf) : set.insert value = (false, set) :=
  if_pos (contains_iff.mpr known)

theorem insert_of_not_mem (fresh : classOf value ∉ set.members.map classOf) :
    set.insert value = (true, ⟨set.members ++ [value]⟩) :=
  if_neg (mt contains_iff.mp fresh)

theorem insert_fresh_iff : (set.insert value).1 = true ↔ classOf value ∉ set.members.map classOf := by
  by_cases known : classOf value ∈ set.members.map classOf
  · rw [insert_of_mem known]
    simp [known]
  · rw [insert_of_not_mem known]
    simp [known]

/-- A step adds the class of the value, if it was not there, and no other. -/
theorem mem_classes_insert {c : Quotient (sameness α)} :
    c ∈ (set.insert value).2.members.map classOf ↔ c ∈ set.members.map classOf ∨ c = classOf value := by
  by_cases known : classOf value ∈ set.members.map classOf
  · rw [insert_of_mem known]
    exact ⟨.inl, fun either => either.elim id fun same => same ▸ known⟩
  · rw [insert_of_not_mem known, List.map_append, List.mem_append, List.map_singleton, List.mem_singleton]

theorem nodup_classes_insert (distinct : (set.members.map classOf).Nodup) (value : α) :
    ((set.insert value).2.members.map classOf).Nodup := by
  by_cases known : classOf value ∈ set.members.map classOf
  · rwa [insert_of_mem known]
  · rw [insert_of_not_mem known, List.map_append]
    apply List.nodup_append.mpr
    refine ⟨distinct, List.nodup_singleton _, ?_⟩
    rintro c member _ last rfl
    exact known (List.mem_singleton.mp last ▸ member)

theorem mem_classes_insertAll {values : List α} {c : Quotient (sameness α)} :
    c ∈ (set.insertAll values).2.members.map classOf ↔ c ∈ set.members.map classOf ∨ c ∈ values.map classOf := by
  induction values generalizing set with
  | nil => simp [insertAll]
  | cons value rest ih =>
    rw [insertAll_cons, ih, mem_classes_insert, List.map_cons, List.mem_cons, or_assoc]

theorem nodup_classes_insertAll (distinct : (set.members.map classOf).Nodup) (values : List α) :
    ((set.insertAll values).2.members.map classOf).Nodup := by
  induction values generalizing set with
  | nil => exact distinct
  | cons value rest ih => exact ih (nodup_classes_insert distinct value)

/-- A value is new where neither the set at the start nor the values put in before hold its class. -/
theorem insertAll_fresh_iff {values : List α} {place : Nat} (here : values[place]? = some value) :
    (set.insertAll values).1[place]? = some true ↔
      classOf value ∉ set.members.map classOf ∧ classOf value ∉ (values.take place).map classOf := by
  induction values generalizing set place with
  | nil => simp at here
  | cons first rest ih =>
    rw [insertAll_cons]
    cases place with
    | zero =>
      obtain rfl : first = value := by simpa using here
      simp [insert_fresh_iff]
    | succ place =>
      -- The first value is among the members by now, so its class only changes sides.
      rw [List.getElem?_cons_succ] at here ⊢
      rw [ih here, mem_classes_insert, List.take_succ_cons, List.map_cons, List.mem_cons, not_or, not_or,
        and_assoc]

theorem size_insertAll_empty (values : List α) :
    (empty.insertAll values).2.size = (classes values).ncard := by
  have start : ((empty : HashedSet α).members.map classOf).Nodup := List.nodup_nil
  have distinct := nodup_classes_insertAll start values
  have same : classes (empty.insertAll values).2.members = classes values := by
    ext c
    exact mem_classes_insertAll.trans (by simp [empty, classes])
  rw [← same, ncard_classes distinct, size]

end HashedSet

namespace Node
variable (digest : String → String → UInt64) (finish : List HashWrite → UInt64) (nodes : List Node)

/-- Hashes made of what nodes write, in any way. -/
@[reducible] def hashableBy : Hashable Node := ⟨fun node => finish (node.writes digest)⟩

theorem lawfulHashable_hashableBy :
    letI := hashableBy digest finish
    LawfulHashable Node :=
  let _ := hashableBy digest finish
  ⟨fun _ _ same => congrArg finish (writes_eq_of_beq digest same)⟩

/-- Nodes put into a set one by one: which of them were new, and the set in the end. -/
def collectAll : List Bool × HashedSet Node :=
  letI := hashableBy digest finish
  HashedSet.empty.insertAll nodes

example : collectAll entryDigest HashWrite.digest nodes = HashedSet.empty.insertAll nodes := rfl

theorem length_collectAll : (collectAll digest finish nodes).1.length = nodes.length :=
  let _ := hashableBy digest finish
  HashedSet.length_answers_insertAll HashedSet.empty nodes

theorem collectAll_fresh_iff {place : Nat} {node : Node} (here : nodes[place]? = some node) :
    (collectAll digest finish nodes).1[place]? = some true ↔
      ∀ earlier ∈ nodes.take place, (earlier == node) = false := by
  let _ := hashableBy digest finish
  have := lawfulHashable_hashableBy digest finish
  have noneInside : classOf node ∉ (HashedSet.empty : HashedSet Node).members.map classOf := List.not_mem_nil
  rw [collectAll, HashedSet.insertAll_fresh_iff here, and_iff_right noneInside, classOf_mem_iff]
  simp only [not_exists, not_and, Bool.not_eq_true]

theorem size_collectAll : (collectAll digest finish nodes).2.size = (classes nodes).ncard :=
  let _ := hashableBy digest finish
  have := lawfulHashable_hashableBy digest finish
  HashedSet.size_insertAll_empty nodes

/-- A set of nodes counts the classes of nodes under equality: a node is new unless an equal one came
before it. So the size is the same for every order of the nodes, and also where nodes are replaced by
ones with other orders of attributes and other places of opening tags, at any depth. -/
theorem collectAll_counts_classes :
    (collectAll digest finish nodes).1.length = nodes.length ∧
    (∀ (place : Nat) (node : Node), nodes[place]? = some node →
      ((collectAll digest finish nodes).1[place]? = some true ↔
        ∀ earlier ∈ nodes.take place, (earlier == node) = false)) ∧
    (collectAll digest finish nodes).2.size = (classes nodes).ncard ∧
    (∀ others : List Node, nodes.Perm others →
      (collectAll digest finish others).2.size = (collectAll digest finish nodes).2.size) ∧
    ∀ others, List.Forall₂ Rearranged nodes others →
      (collectAll digest finish others).2.size = (collectAll digest finish nodes).2.size := by
  refine ⟨length_collectAll digest finish nodes, fun _ _ => collectAll_fresh_iff digest finish nodes,
    size_collectAll digest finish nodes, ?_, ?_⟩
  · intro others reordered
    rw [size_collectAll, size_collectAll, classes_eq_of_perm reordered]
  · intro others rearranged
    have same := map_classOf_eq_of_forall₂ (rearranged.imp fun _ _ => beq_iff_rearranged.mpr)
    rw [size_collectAll, size_collectAll, classes, classes, same]

end Node
end MarkupTree
