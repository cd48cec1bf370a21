import Mathlib.Data.Set.Card
import Mathlib.Order.Interval.Finset.Nat
import MarkupTree.Proofs.Draft.Parts
import MarkupTree.Proofs.Tag.Grammar

/-! Trees that calls can build. Whatever texts and offsets come in, and however the calls follow one
another, every node of every tree is well formed; and nothing else holds of all of them, as each tree
that is well formed throughout is built by some calls. -/
namespace MarkupTree

/-- The offsets are in order, so the length is that from one to the other and as many offsets lie
within; and the strict reading of the offsets gives the span back. -/
structure Span.WellFormed (span : Span) : Prop where
  ordered : span.start ≤ span.stop
  reaches : span.start + span.length = span.stop
  counted : {offset | offset ∈ span}.ncard = span.length
  reread : Span.ofOffsets? span.start span.stop = .ok span

/-- Only elements have children. -/
structure Base.WellFormed (base : Base) : Prop where
  span : base.span.WellFormed
  leaf : base.kind ≠ .element → base.children = []

structure Element.WellFormed (e : Element) : Prop where
  tag : e.name.span.WellFormed
  unbroken : ∀ c ∈ e.name.text.toList, Tag.isBlank c = false
  distinct : (e.attributes.toList.map Prod.fst).Nodup

/-- What a node records of itself is right. Nothing is said of the nodes below it. -/
structure Node.WellFormed (node : Node) : Prop where
  base : node.base.WellFormed
  element_iff : node.base.kind = .element ↔ ∃ e, node = .element e
  text_iff : node.base.kind = .text ↔ ∃ span content, node = .text span content
  comment_iff : node.base.kind = .comment ↔ ∃ span content, node = .comment span content
  element : ∀ e, node = .element e → e.WellFormed

namespace Span
variable {span : Span}

theorem ofOffsets_of_ordered (ordered : span.start ≤ span.stop) : ofOffsets span.start span.stop = span :=
  ofOffsets_eq_iff.mpr ordered

theorem ncard_mem (span : Span) : {offset | offset ∈ span}.ncard = span.length := by
  have within : {offset | offset ∈ span} = (Finset.Ico span.start span.stop : Set Nat) := by
    ext offset
    rw [Set.mem_ofPred_eq, Finset.mem_coe, Finset.mem_Ico, mem_iff]
  rw [within, Set.ncard_coe_finset, Nat.card_Ico, length]

/-- Order is all there is to it; the rest follows. -/
theorem wellFormed_iff : span.WellFormed ↔ span.start ≤ span.stop := by
  refine ⟨fun formed => formed.ordered, fun ordered => ?_⟩
  have reread := ofOffsets?_eq_ok_iff.mpr ⟨ordered, (ofOffsets_of_ordered ordered).symm⟩
  exact ⟨ordered, Nat.add_sub_cancel' ordered, span.ncard_mem, reread⟩

end Span

theorem Tag.exists_nameOf_iff {name : String} :
    (∃ raw, nameOf raw = name) ↔ ∀ c ∈ name.toList, isBlank c = false := by
  constructor
  · rintro ⟨raw, rfl⟩ c member
    rw [toList_nameOf] at member
    exact not_isBlank_of_mem_nameChars member
  · intro unbroken
    -- the blank behind the name keeps a `/` or `>` at its end from being read as a delimiter
    refine ⟨"<" ++ name ++ " ", String.toList_injective ?_⟩
    have raw : ("<" ++ name ++ " ").toList = '<' :: (name.toList ++ [' ']) := by simp
    rw [toList_nameOf, raw, nameChars, dropOpening_cons, dropClosing_of_unclosed (by simp)]
    by_cases empty : name.toList = []
    · rw [empty]
      decide
    · exact firstWord_append unbroken empty (by simp [isBlank])

theorem Element.wellFormed_iff {e : Element} :
    e.WellFormed ↔ e.name.span.start ≤ e.name.span.stop ∧ ∀ c ∈ e.name.text.toList, Tag.isBlank c = false :=
  ⟨fun formed => ⟨formed.tag.ordered, formed.unbroken⟩,
    fun ⟨ordered, unbroken⟩ => ⟨Span.wellFormed_iff.mpr ordered, unbroken, e.attributes.distinct⟩⟩

/-- Around its children and from its own offsets, with its name in a tag and its attributes in their
order, an element that is well formed is built as it is. -/
theorem Element.exists_build {e : Element} (ordered : e.span.start ≤ e.span.stop) (formed : e.WellFormed) :
    ∃ token writes, ((build token e.children e.span.start e.span.stop).value.setAll writes).value = e := by
  obtain ⟨raw, named⟩ := Tag.exists_nameOf_iff.mpr formed.unbroken
  refine ⟨⟨raw, e.name.span.start, e.name.span.stop⟩, e.attributes.toList, ?_⟩
  rw [value_setAll, value_build, named, Span.ofOffsets_of_ordered ordered,
    Span.ofOffsets_of_ordered formed.tag.ordered]
  cases e
  exact congrArg (fun attributes => Element.mk _ _ attributes _) (Attributes.ofList_toList _)

namespace Node
variable {node : Node} {built more : List Node}

theorem kind_base_iff (node : Node) :
    (node.base.kind = .element ↔ ∃ e, node = .element e) ∧
    (node.base.kind = .text ↔ ∃ span content, node = .text span content) ∧
    (node.base.kind = .comment ↔ ∃ span content, node = .comment span content) := by
  cases node <;> simp [base, Element.base]

theorem wellFormed_iff :
    node.WellFormed ↔ node.span.start ≤ node.span.stop ∧ ∀ e, node = .element e → e.WellFormed := by
  constructor
  · intro formed
    exact ⟨formed.base.span.ordered, formed.element⟩
  · rintro ⟨ordered, element⟩
    have leaf : node.base.kind ≠ .element → node.base.children = [] := by
      intro other
      cases node with
      | element e => exact absurd rfl other
      | text | comment => rfl
    obtain ⟨elements, texts, comments⟩ := node.kind_base_iff
    exact ⟨⟨Span.wellFormed_iff.mpr ordered, leaf⟩, elements, texts, comments, element⟩

theorem forall_parts_iff {P : Node → Prop} :
    (∀ part ∈ node.parts, P part) ↔ P node ∧ ∀ child ∈ node.children, ∀ part ∈ child.parts, P part := by
  rw [parts_eq, List.forall_mem_append, List.forall_mem_singleton, and_comm]
  simp only [List.forall_mem_flatMap]

/-- One call where the given nodes stand built: of a constructor, of a write to an element, or for a
child of one of the nodes. Nodes are copied, so those that the call is given stand afterwards too. -/
inductive Call (built : List Node) : Node → Prop where
  | text (content : String) (start stop : Nat) : Call built (buildText content start stop).value
  | comment (content : String) (start stop : Nat) : Call built (buildComment content start stop).value
  | element (token : Tag.Token) (start stop : Nat) {children : List Node} (known : children ⊆ built) :
      Call built (.element (Element.build token children start stop).value)
  | set (key value : String) {e : Element} (known : .element e ∈ built) :
      Call built (.element (e.set key value).value)
  | child {parent node : Node} (known : parent ∈ built) (below : node ∈ parent.children) : Call built node

/-- The nodes that stand built after a sequence of calls, the last one first. -/
inductive Calls : List Node → Prop where
  | none : Calls []
  | next {built : List Node} {node : Node} (calls : Calls built) (call : Call built node) : Calls (node :: built)

def Reachable (node : Node) : Prop := ∃ built, Calls built ∧ node ∈ built

/-- Each constructor makes a node that is well formed around any children that are. A write changes
the attributes alone. -/
theorem Call.wellFormed (call : Call built node) (known : ∀ other ∈ built, ∀ part ∈ other.parts, part.WellFormed) :
    ∀ part ∈ node.parts, part.WellFormed := by
  cases call with
  | text content start stop | comment content start stop =>
    refine forall_parts_iff.mpr ⟨wellFormed_iff.mpr ⟨Span.start_le_stop_ofOffsets start stop, ?_⟩, ?_⟩
    · intro e same
      cases same
    · intro child member
      cases member
  | @element token start stop children inside =>
    rw [Element.value_build]
    refine forall_parts_iff.mpr ⟨wellFormed_iff.mpr ⟨Span.start_le_stop_ofOffsets start stop, ?_⟩, ?_⟩
    · rintro e ⟨⟩
      have unbroken := Tag.exists_nameOf_iff.mp ⟨token.raw, rfl⟩
      exact Element.wellFormed_iff.mpr ⟨Span.start_le_stop_ofOffsets token.start token.stop, unbroken⟩
    · exact fun child member => known child (inside member)
  | @set key value e stands =>
    obtain ⟨formed, children⟩ := forall_parts_iff.mp (known _ stands)
    rw [Element.value_set]
    refine forall_parts_iff.mpr ⟨wellFormed_iff.mpr ⟨formed.base.span.ordered, ?_⟩, children⟩
    have element := formed.element e rfl
    rintro _ ⟨⟩
    exact ⟨element.tag, element.unbroken, (e.attributes.insert key value).distinct⟩
  | child stands below => exact (forall_parts_iff.mp (known _ stands)).2 node below

/-- What each call brings about if it holds of the nodes given, holds of all nodes built. -/
theorem Calls.invariant {P : Node → Prop}
    (preserves : ∀ {built node}, (∀ other ∈ built, P other) → Call built node → P node) (calls : Calls built) :
    ∀ node ∈ built, P node := by
  induction calls with
  | none => exact fun node member => absurd member List.not_mem_nil
  | next _ call ih => exact List.forall_mem_cons.mpr ⟨preserves ih call, ih⟩

theorem Call.weaken (call : Call built node) (known : built ⊆ more) : Call more node := by
  cases call with
  | text content start stop => exact .text content start stop
  | comment content start stop => exact .comment content start stop
  | element token start stop inside => exact .element token start stop (List.Subset.trans inside known)
  | set key value stands => exact .set key value (known stands)
  | child stands below => exact .child (known stands) below

theorem Calls.append (calls : Calls built) (others : Calls more) : Calls (built ++ more) := by
  induction calls with
  | none => exact others
  | next _ call ih => exact .next ih (call.weaken (List.subset_append_left _ _))

namespace Reachable

theorem of_call (calls : Calls built) (call : Call built node) : node.Reachable :=
  ⟨node :: built, .next calls call, List.mem_cons_self⟩

/-- Nodes that can be built, each by calls of its own, can be built together. -/
theorem exists_calls {nodes : List Node} (reachable : ∀ node ∈ nodes, node.Reachable) :
    ∃ built, Calls built ∧ nodes ⊆ built := by
  induction nodes with
  | nil => exact ⟨[], .none, List.nil_subset _⟩
  | cons node rest ih =>
    obtain ⟨⟨first, calls, member⟩, reachable⟩ := List.forall_mem_cons.mp reachable
    obtain ⟨second, others, members⟩ := ih reachable
    refine ⟨first ++ second, calls.append others, List.cons_subset.mpr ⟨?_, ?_⟩⟩
    · exact List.mem_append_left second member
    · exact List.subset_append_of_subset_right first members

theorem setAll {e : Element} (reachable : (Node.element e).Reachable) (writes : List (String × String)) :
    (Node.element (e.setAll writes).value).Reachable := by
  induction writes generalizing e with
  | nil => exact reachable
  | cons write rest ih =>
    obtain ⟨built, calls, stands⟩ := reachable
    rw [Element.setAll_cons, Logged.value_bind]
    exact ih (of_call calls (.set write.1 write.2 stands))

theorem element {children : List Node} (reachable : ∀ child ∈ children, child.Reachable) (token : Tag.Token)
    (start stop : Nat) (writes : List (String × String)) :
    (Node.element ((Element.build token children start stop).value.setAll writes).value).Reachable := by
  obtain ⟨built, calls, known⟩ := exists_calls reachable
  exact (of_call calls (.element token start stop known)).setAll writes

/-- From the leaves up, each node is built from its own offsets and around its own children. -/
theorem of_wellFormed (formed : ∀ part ∈ node.parts, part.WellFormed) : node.Reachable := by
  induction node using Node.induction with
  | text span content =>
    have ordered := (forall_parts_iff.mp formed).1.base.span.ordered
    have same : (buildText content span.start span.stop).value = .text span content :=
      congrArg (Node.text · content) (Span.ofOffsets_of_ordered ordered)
    exact same ▸ of_call .none (.text content span.start span.stop)
  | comment span content =>
    have ordered := (forall_parts_iff.mp formed).1.base.span.ordered
    have same : (buildComment content span.start span.stop).value = .comment span content :=
      congrArg (Node.comment · content) (Span.ofOffsets_of_ordered ordered)
    exact same ▸ of_call .none (.comment content span.start span.stop)
  | element e ih =>
    obtain ⟨own, below⟩ := forall_parts_iff.mp formed
    obtain ⟨token, writes, same⟩ := Element.exists_build own.base.span.ordered (own.element e rfl)
    have children : ∀ child ∈ e.children, child.Reachable := fun child member => ih child member (below child member)
    exact same ▸ element children token e.span.start e.span.stop writes

end Reachable

/-- The trees that calls can build are those with all their nodes well formed: a call keeps that of the
nodes it is given, and from nodes that are so each such tree is built again. -/
theorem reachable_iff_wellFormed (node : Node) : node.Reachable ↔ ∀ part ∈ node.parts, part.WellFormed := by
  constructor
  · rintro ⟨built, calls, member⟩
    exact calls.invariant (fun known call => call.wellFormed known) node member
  · exact Reachable.of_wellFormed

end Node

/-- A draft builds by calls alone, as long as the nodes that it takes over were built so. -/
theorem Draft.reachable_build {draft : Draft} (known : ∀ node, .existing node ∈ draft.parts → node.Reachable) :
    draft.build.value.Reachable := by
  induction draft using Draft.induction with
  | text content start stop => exact .of_call .none (.text content start stop)
  | comment content start stop => exact .of_call .none (.comment content start stop)
  | element token start stop children writes ih =>
    have below : ∀ child ∈ (buildAll children).value, child.Reachable := by
      rw [value_buildAll, List.forall_mem_map]
      intro child member
      refine ih child member fun node inside => known node ?_
      rw [parts_element]
      exact List.mem_append_left _ (List.mem_flatMap.mpr ⟨child, member, inside⟩)
    exact .element below token start stop writes
  | existing node => exact known node (by simp [parts])

end MarkupTree
