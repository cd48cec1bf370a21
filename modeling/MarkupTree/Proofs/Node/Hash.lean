import MarkupTree.Node.Build
import MarkupTree.Node.Hash
import MarkupTree.Proofs.Node.Equality

/-! Equal values feed the same writes to a hash, whatever digest stands for an attribute, so
no hash can tell them apart. The sum of digests does not see the order of attributes, and
the span of a name is never written. -/
namespace MarkupTree
variable (digest : String → String → UInt64)

theorem Attributes.sum_eq_of_perm {a b : Attributes} (reordered : a.entries.Perm b.entries) :
    a.sum digest = b.sum digest := by
  refine reordered.foldl_eq' (fun first _ second _ total => ?_) 0
  rw [UInt64.add_assoc, UInt64.add_assoc, UInt64.add_comm (digest first.1 first.2)]

theorem Attributes.writes_eq_of_beq {a b : Attributes} (same : (a == b) = true) :
    a.writes digest = b.writes digest := by
  have reordered := beq_iff_perm.mp same
  rw [writes, writes, sum_eq_of_perm digest reordered, size, size, reordered.length_eq]

namespace Node

theorem forestWrites_congr {forest others : List Node}
    (same : List.Forall₂ (fun node other => node.writes digest = other.writes digest) forest others) :
    forestWrites digest forest = forestWrites digest others := by
  induction same with
  | nil => rfl
  | cons nodes _ ih => rw [forestWrites, forestWrites, nodes, ih]

theorem Rearranged.writes_eq {node other : Node} (same : node.Rearranged other) :
    node.writes digest = other.writes digest := by
  induction node using Node.induction generalizing other with
  | element e ih =>
    cases same with
    | @element _ f span name attributes children =>
      have forests : forestWrites digest e.children = forestWrites digest f.children :=
        forestWrites_congr digest (forall₂_imp_of_mem (fun child member twin => ih child member) children)
      have entries := Attributes.writes_eq_of_beq digest (Attributes.beq_iff_perm.mpr attributes)
      simp only [writes_element, Element.writes_eq, Base.writes, Base.writesAround, Element.base, span, name, entries,
        forests, children.length_eq]
  | text | comment =>
    cases same
    rfl

theorem writes_eq_of_beq {node other : Node} (same : (node == other) = true) :
    node.writes digest = other.writes digest :=
  (beq_iff_rearranged.mp same).writes_eq digest

end Node

theorem Element.writes_eq_of_beq {e other : Element} (same : (e == other) = true) :
    e.writes digest = other.writes digest := by
  have nodes : (Node.element e == Node.element other) = true := by rwa [Node.element_beq_element]
  have writes := Node.writes_eq_of_beq digest nodes
  rw [Node.writes_element, Node.writes_element] at writes
  exact List.tail_eq_of_cons_eq writes

theorem Base.writes_eq_of_beq {base other : Base} (same : (base == other) = true) :
    base.writes digest = other.writes digest := by
  simp only [beq_eq, Bool.and_eq_true, beq_iff_eq, Node.forest_beq_iff] at same
  obtain ⟨⟨kind, span⟩, children⟩ := same
  have forests : Node.forestWrites digest base.children = Node.forestWrites digest other.children :=
    Node.forestWrites_congr digest (children.imp fun _ _ => Node.writes_eq_of_beq digest)
  rw [writes, writes, writesAround, writesAround, kind, span, forests, children.length_eq]

instance : LawfulHashable Attributes where
  hash_eq _ _ same := congrArg HashWrite.digest (Attributes.writes_eq_of_beq entryDigest same)

instance : LawfulHashable Base where
  hash_eq _ _ same := congrArg HashWrite.digest (Base.writes_eq_of_beq entryDigest same)

instance : LawfulHashable Element where
  hash_eq _ _ same := congrArg HashWrite.digest (Element.writes_eq_of_beq entryDigest same)

instance : LawfulHashable Node where
  hash_eq _ _ same := congrArg HashWrite.digest (Node.writes_eq_of_beq entryDigest same)

/-- Equal trees, and equal parts of trees, feed a hash the same writes. In particular the
order of attributes and the places of opening tags make no difference at any depth. -/
theorem hash_writes_respect_equality :
    (∀ node other : Node, (node == other) = true → node.writes digest = other.writes digest) ∧
    (∀ e other : Element, (e == other) = true → e.writes digest = other.writes digest) ∧
    (∀ base other : Base, (base == other) = true → base.writes digest = other.writes digest) ∧
    (∀ a b : Attributes, (a == b) = true → a.writes digest = b.writes digest) ∧
    ∀ node other : Node, node.Rearranged other →
      (node == other) = true ∧ node.writes digest = other.writes digest :=
  ⟨fun _ _ => Node.writes_eq_of_beq digest, fun _ _ => Element.writes_eq_of_beq digest,
    fun _ _ => Base.writes_eq_of_beq digest, fun _ _ => Attributes.writes_eq_of_beq digest,
    fun _ _ same => ⟨Node.beq_iff_rearranged.mpr same, same.writes_eq digest⟩⟩

/-- A paragraph around a bold text, with the attributes of both written in the given order
and the bold tag as far to the right as asked for. -/
def boldParagraph (writes : List (String × String)) (tagStart : Nat) : Node :=
  (Draft.element ⟨"<p>", 0, 3⟩ 0 40
    [.element ⟨"<b />", tagStart, tagStart + 5⟩ 3 9 [.text "é" 12 8] writes] writes).build.value

theorem hash_writes_boldParagraph :
    let first := boldParagraph [("id", "x"), ("class", "a"), ("id", "y")] 3
    let second := boldParagraph [("class", "a"), ("id", "y")] 7
    (first == second) = true ∧ first.writes entryDigest = second.writes entryDigest := by
  have equal : (boldParagraph [("id", "x"), ("class", "a"), ("id", "y")] 3 ==
      boldParagraph [("class", "a"), ("id", "y")] 7) = true := by decide +kernel
  exact ⟨equal, (hash_writes_respect_equality entryDigest).1 _ _ equal⟩

end MarkupTree
