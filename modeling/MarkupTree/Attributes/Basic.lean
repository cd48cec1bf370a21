/-! The attributes of an element. Each key stands once, in the order of first writing;
writing a key again replaces its value where it stands. Keys are compared character by
character, so letter case matters. Equality does not look at the order. -/
namespace MarkupTree

@[ext]
structure Attributes where
  entries : List (String × String)
  distinct : (entries.map Prod.fst).Nodup

namespace Attributes

def empty : Attributes := ⟨[], List.nodup_nil⟩

instance : EmptyCollection Attributes := ⟨empty⟩

instance : Inhabited Attributes := ⟨empty⟩

def toList (attributes : Attributes) : List (String × String) := attributes.entries

def size (attributes : Attributes) : Nat := attributes.entries.length

def isEmpty (attributes : Attributes) : Bool := attributes.entries.isEmpty

def get? (attributes : Attributes) (key : String) : Option String := attributes.entries.lookup key

def contains (attributes : Attributes) (key : String) : Bool := (attributes.get? key).isSome

/-- Writes a value in place where the key stands, or at the end where it is new. -/
def insertEntry (key value : String) : List (String × String) → List (String × String)
  | [] => [(key, value)]
  | entry :: rest =>
    if entry.1 = key then (key, value) :: rest else entry :: insertEntry key value rest

theorem keys_insertEntry (key value : String) (entries : List (String × String)) :
    (insertEntry key value entries).map Prod.fst =
      if key ∈ entries.map Prod.fst then entries.map Prod.fst else entries.map Prod.fst ++ [key] := by
  induction entries with
  | nil => rfl
  | cons entry rest ih =>
    unfold insertEntry
    by_cases here : entry.1 = key
    · simp [here]
    · have other : ¬ key = entry.1 := fun same => here same.symm
      simp only [if_neg here, List.map_cons, ih, List.mem_cons, other, false_or]
      split <;> rfl

theorem nodup_keys_insertEntry {entries : List (String × String)} (key value : String)
    (distinct : (entries.map Prod.fst).Nodup) :
    ((insertEntry key value entries).map Prod.fst).Nodup := by
  rw [keys_insertEntry]
  split
  · exact distinct
  · rename_i fresh
    refine List.nodup_append.mpr ⟨distinct, by simp, fun a old b new => ?_⟩
    obtain rfl := List.mem_singleton.mp new
    exact fun same => fresh (same ▸ old)

def insert (attributes : Attributes) (key value : String) : Attributes :=
  ⟨insertEntry key value attributes.entries, nodup_keys_insertEntry key value attributes.distinct⟩

/-- The value that stood under the key before, and the attributes with the new one. -/
def exchange (attributes : Attributes) (key value : String) : Option String × Attributes :=
  (attributes.get? key, attributes.insert key value)

/-- The attributes after further writes, one after the other. -/
def insertAll (attributes : Attributes) (writes : List (String × String)) : Attributes :=
  writes.foldl (fun attributes write => attributes.insert write.1 write.2) attributes

def ofList (writes : List (String × String)) : Attributes := empty.insertAll writes

/-- Equally many entries, and each of the first stands in the second. Keys are distinct,
so nothing is left over in the second. -/
instance : BEq Attributes where
  beq a b := a.size == b.size && a.entries.all fun entry => b.get? entry.1 == some entry.2

theorem beq_eq (a b : Attributes) :
    (a == b) = (a.size == b.size && a.entries.all fun entry => b.get? entry.1 == some entry.2) := rfl

end Attributes
end MarkupTree
