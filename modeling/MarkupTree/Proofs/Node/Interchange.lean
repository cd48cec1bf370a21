import MarkupTree.Node.Offset
import MarkupTree.Proofs.Node.Equality
import MarkupTree.Proofs.Source.Unambiguous

/-! Equal trees in place of one another. Every reader answers alike for them, at every path and
offset, except that their sources can list attributes in different orders; so the sources have
the same characters, and they are the same where the attributes are in the same order. -/
namespace MarkupTree

namespace Node

/-- What readers other than the source answer for two nodes. -/
structure ReadAlike (node other : Node) : Prop where
  equal : (node == other) = true
  span : node.span = other.span
  childCount : node.childCount = other.childCount
  labels : node.element?.map Element.label = other.element?.map Element.label
  ids : node.element?.map Element.id? = other.element?.map Element.id?
  classes : node.element?.map Element.class? = other.element?.map Element.class?
  attributes : ∀ key, node.element?.map (·.attribute? key) = other.element?.map (·.attribute? key)

/-- The elements at the end of the same path list their attributes in the same order. -/
def SameOrder (node other : Node) : Prop :=
  ∀ path e f, node.descendant? path = some (.element e) → other.descendant? path = some (.element f) →
    e.attributes.entries.map Prod.fst = f.attributes.entries.map Prod.fst

namespace Rearranged
variable {node other : Node} (same : node.Rearranged other)
include same

theorem readAlike : node.ReadAlike other := by
  have equal := beq_iff_rearranged.mpr same
  cases same with
  | @element e f span name attributes children =>
    have values (key : String) : e.attribute? key = f.attribute? key :=
      Attributes.get?_eq_of_perm attributes key
    have labels : e.label = f.label := by simp only [Element.label, Element.id?, Element.class?, name, values]
    exact ⟨equal, span, children.length_eq, congrArg some labels, congrArg some (values "id"),
      congrArg some (values "class"), fun key => congrArg some (values key)⟩
  | text | comment => exact ⟨equal, rfl, rfl, rfl, rfl, rfl, fun _ => rfl⟩

theorem descendant? (path : List Nat) :
    Option.Rel Rearranged (node.descendant? path) (other.descendant? path) := by
  induction path generalizing node other with
  | nil => exact .some same
  | cons place rest ih =>
    have step := forall₂_iff_getElem?.mp same.children place
    rw [descendant?_cons, descendant?_cons, child?, child?]
    generalize node.children[place]? = here, other.children[place]? = there at step
    cases step with
    | none => exact .none
    | some below => exact ih below

theorem pathAt?_eq (offset : Nat) : node.pathAt? offset = other.pathAt? offset := by
  refine pathAt?_eq_of_spans offset fun place rest => ?_
  exact map_eq_map_of_optionRel (fun _ _ alike => alike.readAlike.span) (same.descendant? (place :: rest))

/-- Both searches come to nothing, or they end at one path with a hit and its twin. -/
theorem search_agrees (offset : Nat) :
    (node.nodeAt? offset = none ∧ other.nodeAt? offset = none) ∨
      ∃ path hit twin, node.pathAt? offset = some path ∧ other.pathAt? offset = some path ∧
        node.nodeAt? offset = some hit ∧ node.descendant? path = some hit ∧
        other.nodeAt? offset = some twin ∧ other.descendant? path = some twin ∧ hit.Rearranged twin := by
  have ways := same.pathAt?_eq offset
  rcases Node.search_agrees offset node with ⟨noHit, noPath⟩ | ⟨path, hit, found, way, leads⟩
  · rw [noPath] at ways
    exact .inl ⟨noHit, pathAt?_eq_none_iff.mp ways.symm⟩
  · rw [way] at ways
    obtain ⟨twin, reached, alike⟩ := exists_of_optionRel_some (leads ▸ same.descendant? path)
    have there : other.nodeAt? offset = some twin := by
      rw [nodeAt?_eq_descendant?, ← ways, Option.bind_some, reached]
    exact .inr ⟨path, hit, twin, way, ways.symm, found, leads, there, reached, alike⟩

end Rearranged

theorem forestSource_perm {forest others : List Node}
    (same : List.Forall₂ (fun node other => node.source.toList.Perm other.source.toList) forest others) :
    (forestSource forest).toList.Perm (forestSource others).toList := by
  induction same with
  | nil => exact .refl _
  | cons nodes _ ih => simpa only [forestSource_cons, String.toList_append] using nodes.append ih

/-- Only the attributes within a tag change places, tag by tag. -/
theorem Rearranged.source_perm {node other : Node} (same : node.Rearranged other) :
    node.source.toList.Perm other.source.toList := by
  induction node using Node.induction generalizing other with
  | element e ih =>
    cases same with
    | @element _ f span name attributes children =>
      rw [source_element, source_element]
      by_cases nameless : e.name.text = ""
      · rw [Element.source_of_nameless nameless, Element.source_of_nameless (name ▸ nameless)]
      · have forests := forestSource_perm (forall₂_imp_of_mem (fun child member twin => ih child member) children)
        have entries := attributes.flatMap_right Attributes.entryChars
        rw [Element.source_of_named nameless, Element.source_of_named (name ▸ nameless)]
        simp only [Element.openingTag, Element.closingTag, String.toList_append, Attributes.toList_source, name]
        exact (((entries.append_left _).append_right _).append forests).append_right _
  | text | comment =>
    cases same
    exact .refl _

theorem Rearranged.sameMarkup {node other : Node} (same : node.Rearranged other) (ordered : node.SameOrder other) :
    node.SameMarkup other := by
  induction node using Node.induction generalizing other with
  | element e ih =>
    cases same with
    | @element _ f span name attributes children =>
      have entries := Attributes.entries_eq_of_perm attributes (ordered [] e f rfl rfl)
      refine .element name entries (forall₂_imp_of_getElem? ?_ children)
      intro place child twin here there alike
      refine ih child (List.mem_of_getElem? here) alike ?_
      intro path e' f' found reached
      exact ordered (place :: path) e' f' (descendant?_cons_eq_some_iff.mpr ⟨child, here, found⟩)
        (descendant?_cons_eq_some_iff.mpr ⟨twin, there, reached⟩)
  | text span content =>
    cases same
    exact .text _ _ _
  | comment span content =>
    cases same
    exact .comment _ _ _

/-- Equal trees are searched along the same ways to equal nodes, and at every path their readers
agree. Their sources have the same characters, and they differ in the order of attributes only. -/
theorem readers_agree_of_beq {node other : Node} (same : (node == other) = true) :
    (∀ offset, (node.nodeAt? offset = none ∧ other.nodeAt? offset = none) ∨
      ∃ path hit twin, node.pathAt? offset = some path ∧ other.pathAt? offset = some path ∧
        node.nodeAt? offset = some hit ∧ node.descendant? path = some hit ∧
        other.nodeAt? offset = some twin ∧ other.descendant? path = some twin ∧ (hit == twin) = true) ∧
    (∀ path, Option.Rel ReadAlike (node.descendant? path) (other.descendant? path)) ∧
    node.source.toList.Perm other.source.toList ∧
    (node.SameOrder other → node.source = other.source) := by
  have same := beq_iff_rearranged.mp same
  refine ⟨?_, ?_, same.source_perm, fun ordered => (same.sameMarkup ordered).source_eq⟩
  · intro offset
    simp only [beq_iff_rearranged]
    exact same.search_agrees offset
  · exact fun path => optionRel_imp (fun _ _ alike => alike.readAlike) (same.descendant? path)

/-- `<a>x</a>` with attributes, and with an opening tag up to the given offset. -/
def link (writes : List (String × String)) (tagStop : Nat) : Node :=
  .element ⟨⟨0, 20⟩, ⟨"a", ⟨0, tagStop⟩⟩, .ofList writes, [.text ⟨5, 9⟩ "x"]⟩

theorem sameOrder_link {writes others : List (String × String)} (tagStop other : Nat)
    (keys : (Attributes.ofList writes).entries.map Prod.fst = (Attributes.ofList others).entries.map Prod.fst) :
    (link writes tagStop).SameOrder (link others other) := by
  intro path e f found reached
  match path with
  | [] =>
    cases found
    cases reached
    exact keys
  | 0 :: [] => simp [link, child?] at found
  | 0 :: next :: rest => simp [link, child?] at found
  | (place + 1) :: rest => simp [link, child?] at found

theorem readers_agree_on_links :
    let first := link [("id", "x"), ("class", "a"), ("id", "y")] 5
    let second := link [("class", "a"), ("id", "y")] 7
    let third := link [("id", "y"), ("class", "a")] 9
    (first == second) = true ∧ second.pathAt? 5 = some [0] ∧
      (first.descendant? []).Rel ReadAlike (second.descendant? []) ∧
      first.source.toList.Perm second.source.toList ∧
      (first == third) = true ∧ first.SameOrder third ∧ first.source = third.source := by
  intro first second third
  have equal : (first == second) = true := by decide +kernel
  have alike : (first == third) = true := by decide +kernel
  have ordered : first.SameOrder third := sameOrder_link 5 9 (by decide +kernel)
  obtain ⟨search, readers, characters, _⟩ := readers_agree_of_beq equal
  have way : first.pathAt? 5 = some [0] := rfl
  have hit : second.pathAt? 5 = some [0] := by
    rcases search 5 with ⟨noHit, _⟩ | ⟨path, _, _, here, there, _⟩
    · contradiction
    · exact there.trans (here.symm.trans way)
  exact ⟨equal, hit, readers [], characters, alike, ordered, (readers_agree_of_beq alike).2.2.2 ordered⟩

end Node
end MarkupTree
