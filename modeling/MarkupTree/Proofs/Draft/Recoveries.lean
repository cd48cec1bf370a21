import Mathlib.Algebra.BigOperators.Group.List.Basic
import MarkupTree.Proofs.Draft.Parts
import MarkupTree.Proofs.Source.Visible

/-! What the log of a construction says about the tree. Each note stands for one recovery: a
nameless element, an inverted pair of offsets or a key written again. Nothing is noted twice
and no recovery goes without a note, so a silent construction has kept all it was given. -/
namespace MarkupTree

namespace Event

/-- The tag that had no name, as it came in. -/
def tag? : Event → Option Tag.Token
  | .namelessTag raw start stop => some ⟨raw, start, stop⟩
  | .clampedSpan .. | .overwrittenAttribute .. => none

/-- The offsets that were inverted, as they came in. -/
def offsets? : Event → Option (Nat × Nat)
  | .clampedSpan start stop => some (start, stop)
  | .namelessTag .. | .overwrittenAttribute .. => none

/-- The key that was written again. -/
def rewritten? : Event → Option String
  | .overwrittenAttribute _ key => some key
  | .namelessTag .. | .clampedSpan .. => none

end Event

/-- The attributes that the node itself stores. -/
def Node.storedCount : Node → Nat
  | .element e => e.attributes.size
  | .text .. | .comment .. => 0

namespace Draft

def token? : Draft → Option Tag.Token
  | .element token .. => some token
  | .text .. | .comment .. | .existing _ => none

/-- The offsets of the part itself: those of the node, then those of its tag. -/
def ownOffsets : Draft → List (Nat × Nat)
  | .text _ start stop | .comment _ start stop => [(start, stop)]
  | .element token start stop _ _ => [(start, stop), (token.start, token.stop)]
  | .existing _ => []

def ownWrites : Draft → List (String × String)
  | .element _ _ _ _ writes => writes
  | .text .. | .comment .. | .existing _ => []

/-- The notes on the part itself. -/
def ownEvents (draft : Draft) : List Event :=
  (draft.token?.filter (Tag.nameOf ·.raw = "")).toList.map
      (fun token => .namelessTag token.raw token.start token.stop) ++
    (draft.ownOffsets.filter fun given => given.2 < given.1).map
      (fun given => .clampedSpan given.1 given.2) ++
    (Attributes.rewrittenKeys [] draft.ownWrites).map
      (.overwrittenAttribute (draft.token?.elim "" (Tag.nameOf ·.raw)))

/-- All tags, offsets and writes that the draft gives, part by part. -/
def tokens (draft : Draft) : List Tag.Token := draft.parts.filterMap token?

def offsets (draft : Draft) : List (Nat × Nat) := draft.parts.flatMap ownOffsets

def writes (draft : Draft) : List (String × String) := draft.parts.flatMap ownWrites

theorem ownEvents_element (token : Tag.Token) (start stop : Nat) (children : List Draft)
    (writes : List (String × String)) :
    (element token start stop children writes).ownEvents =
      (if Tag.nameOf token.raw = "" then [.namelessTag token.raw token.start token.stop] else []) ++
        (if stop < start then [.clampedSpan start stop] else []) ++
        (if token.stop < token.start then [.clampedSpan token.start token.stop] else []) ++
        (Attributes.rewrittenKeys [] writes).map (.overwrittenAttribute (Tag.nameOf token.raw)) := by
  by_cases nameless : Tag.nameOf token.raw = "" <;> by_cases inverted : stop < start <;>
    by_cases tagInverted : token.stop < token.start <;>
    simp [ownEvents, token?, ownOffsets, ownWrites, Option.filter_some, nameless, inverted, tagInverted]

/-- The log of a construction is that of its parts, one after the other. -/
theorem events_build (draft : Draft) : draft.build.events = draft.parts.flatMap ownEvents := by
  induction draft using Draft.induction with
  | text content start stop | comment content start stop =>
    by_cases inverted : stop < start <;>
      simp [build, Node.buildText, Node.buildComment, Span.events_clamp, parts, ownEvents, token?, ownOffsets,
        ownWrites, Attributes.rewrittenKeys, inverted]
  | element token start stop children writes ih =>
    rw [events_build_element, parts_element, List.flatMap_append, List.flatMap_singleton, ownEvents_element,
      List.flatMap_assoc, List.flatMap_congr ih]
  | existing node => rfl

section Own
variable (draft : Draft)

theorem filterMap_tag?_ownEvents :
    draft.ownEvents.filterMap Event.tag? = (draft.token?.filter (Tag.nameOf ·.raw = "")).toList := by
  simp [ownEvents, Event.tag?, Function.comp_def]

theorem filterMap_offsets?_ownEvents :
    draft.ownEvents.filterMap Event.offsets? = draft.ownOffsets.filter fun given => given.2 < given.1 := by
  simp [ownEvents, Event.offsets?, Function.comp_def]

theorem filterMap_rewritten?_ownEvents :
    draft.ownEvents.filterMap Event.rewritten? = Attributes.rewrittenKeys [] draft.ownWrites := by
  simp [ownEvents, Event.rewritten?, Function.comp_def]

theorem ownEvents_eq_nil_iff :
    draft.ownEvents = [] ↔ (∀ token ∈ draft.token?, Tag.nameOf token.raw ≠ "") ∧
      (∀ given ∈ draft.ownOffsets, given.1 ≤ given.2) ∧ (draft.ownWrites.map Prod.fst).Nodup := by
  simp [ownEvents, Attributes.rewrittenKeys_eq_nil_iff]

variable {draft} (built : ∀ node, draft ≠ .existing node)
include built

theorem isNameless_value_build :
    draft.build.value.isNameless = draft.token?.any (Tag.nameOf ·.raw = "") := by
  cases draft with
  | text | comment => rfl
  | element token start stop children writes =>
    rw [value_build_element, Node.isNameless_element]
    by_cases nameless : Tag.nameOf token.raw = "" <;> simp [token?, nameless]
  | existing node => exact absurd rfl (built node)

theorem storedCount_value_build :
    (Attributes.rewrittenKeys [] draft.ownWrites).length + draft.build.value.storedCount =
      draft.ownWrites.length := by
  cases draft with
  | text | comment => rfl
  | element token start stop children writes =>
    have sizes := Attributes.empty.size_insertAll_add writes
    rw [value_build_element, ownWrites, Node.storedCount, Attributes.ofList, Nat.add_comm]
    exact sizes.trans (Nat.zero_add _)
  | existing node => exact absurd rfl (built node)

end Own

variable {draft : Draft}

theorem FromScratch.part (fresh : draft.FromScratch) {part : Draft} (member : part ∈ draft.parts) (node : Node) :
    part ≠ .existing node :=
  fun same => fresh node (same ▸ member)

theorem filterMap_tag?_events (draft : Draft) :
    draft.build.events.filterMap Event.tag? = draft.tokens.filter (Tag.nameOf ·.raw = "") := by
  rw [events_build, tokens, List.filterMap_flatMap, List.filter_filterMap, List.filterMap_eq_flatMap_toList]
  simp only [filterMap_tag?_ownEvents]

theorem filterMap_offsets?_events (draft : Draft) :
    draft.build.events.filterMap Event.offsets? = draft.offsets.filter fun given => given.2 < given.1 := by
  simp only [events_build, offsets, List.filterMap_flatMap, List.filter_flatMap, filterMap_offsets?_ownEvents]

/-- The nameless elements of the tree are those whose tags are noted. -/
theorem FromScratch.countP_isNameless (fresh : draft.FromScratch) :
    draft.build.value.parts.countP (·.isNameless) = (draft.build.events.filterMap Event.tag?).length := by
  rw [parts_value_build fresh, List.countP_map, filterMap_tag?_events, tokens, List.filter_filterMap,
    List.length_filterMap_eq_countP]
  exact List.countP_congr fun part member => by
    rw [Function.comp_apply, isNameless_value_build (fresh.part member), Option.isSome_filter]

/-- Each write is noted or stored, in the tree as in each of its elements. -/
theorem FromScratch.length_writes (fresh : draft.FromScratch) :
    (draft.build.events.filterMap Event.rewritten?).length + (draft.build.value.parts.map (·.storedCount)).sum =
      draft.writes.length := by
  have noted : (draft.build.events.filterMap Event.rewritten?).length =
      (draft.parts.map fun part => (Attributes.rewrittenKeys [] part.ownWrites).length).sum := by
    simp only [events_build, List.filterMap_flatMap, List.length_flatMap, filterMap_rewritten?_ownEvents]
  rw [noted, parts_value_build fresh, List.map_map, ← List.sum_map_add, writes, List.length_flatMap]
  refine congrArg List.sum (List.map_congr_left ?_)
  exact fun part member => storedCount_value_build (fresh.part member)

/-- Nothing is noted where nothing had to be noted on any part. -/
theorem events_build_eq_nil_iff (draft : Draft) :
    draft.build.events = [] ↔ ∀ part ∈ draft.parts, (∀ token ∈ part.token?, Tag.nameOf token.raw ≠ "") ∧
      (∀ given ∈ part.ownOffsets, given.1 ≤ given.2) ∧ (part.ownWrites.map Prod.fst).Nodup := by
  simp only [events_build, List.flatMap_eq_nil_iff, ownEvents_eq_nil_iff]

theorem FromScratch.named_iff (fresh : draft.FromScratch) :
    (∀ part ∈ draft.parts, ∀ token ∈ part.token?, Tag.nameOf token.raw ≠ "") ↔
      ∀ path e, draft.build.value.descendant? path = some (.element e) → e.name.text ≠ "" := by
  have tree : (∀ path e, draft.build.value.descendant? path = some (.element e) → e.name.text ≠ "") ↔
      ∀ node ∈ draft.build.value.parts, node.isNameless = false := by
    constructor
    · intro named node member
      obtain ⟨path, found⟩ := Node.mem_parts_iff.mp member
      cases node with
      | element e => simpa using named path e found
      | text | comment => rfl
    · intro named path e found
      simpa using named (.element e) (Node.mem_parts_iff.mpr ⟨path, found⟩)
  rw [tree, parts_value_build fresh, List.forall_mem_map]
  refine forall₂_congr fun part member => ?_
  rw [isNameless_value_build (fresh.part member)]
  cases part.token? <;> simp

/-- The tree has what the draft gave, as it was given: all offsets, a name in each tag, and each
attribute that was written. -/
inductive Kept : Draft → Node → Prop where
  | text {content : String} {start stop : Nat} {given : Span} (span : given = ⟨start, stop⟩) :
      Kept (.text content start stop) (.text given content)
  | comment {content : String} {start stop : Nat} {given : Span} (span : given = ⟨start, stop⟩) :
      Kept (.comment content start stop) (.comment given content)
  | element {token : Tag.Token} {start stop : Nat} {children : List Draft} {writes : List (String × String)}
      {e : Element} (named : e.name.text ≠ "") (span : e.span = ⟨start, stop⟩)
      (name : e.name = ⟨Tag.nameOf token.raw, ⟨token.start, token.stop⟩⟩) (attributes : e.attributes.entries = writes)
      (below : List.Forall₂ Kept children e.children) :
      Kept (.element token start stop children writes) (.element e)

theorem kept_element_iff {token : Tag.Token} {start stop : Nat} {children : List Draft}
    {writes : List (String × String)} :
    Kept (.element token start stop children writes) (element token start stop children writes).build.value ↔
      (∀ child ∈ children, Kept child child.build.value) ∧ Tag.nameOf token.raw ≠ "" ∧
        (start ≤ stop ∧ token.start ≤ token.stop) ∧ (writes.map Prod.fst).Nodup := by
  have below : List.Forall₂ Kept children (children.map (·.build.value)) ↔
      ∀ child ∈ children, Kept child child.build.value := by
    rw [List.forall₂_map_right_iff, List.forall₂_same]
  rw [value_build_element, ← Attributes.entries_ofList_eq_iff, ← below]
  constructor
  · intro kept
    cases kept with
    | element named span name attributes below =>
      have spans := congrArg Tag.Name.span name
      exact ⟨below, named, ⟨Span.ofOffsets_eq_iff.mp span, Span.ofOffsets_eq_iff.mp spans⟩, attributes⟩
  · rintro ⟨below, named, ⟨ordered, tagOrdered⟩, attributes⟩
    have spans := Span.ofOffsets_eq_iff.mpr tagOrdered
    exact .element named (Span.ofOffsets_eq_iff.mpr ordered) (congrArg (Tag.Name.mk _) spans) attributes below

/-- Where nothing was noted on any part, all is kept, and only there. -/
theorem FromScratch.kept_iff (fresh : draft.FromScratch) :
    Kept draft draft.build.value ↔ draft.build.events = [] := by
  rw [events_build, List.flatMap_eq_nil_iff]
  induction draft using Draft.induction with
  | text content start stop | comment content start stop =>
    rw [parts, List.forall_mem_singleton, ownEvents_eq_nil_iff]
    simp only [token?, ownOffsets, ownWrites, List.forall_mem_singleton, List.map_nil, List.nodup_nil,
      Option.not_mem_none, false_implies, implies_true, true_and, and_true, ← Span.ofOffsets_eq_iff]
    constructor
    · intro kept
      cases kept
      assumption
    · intro span
      constructor
      exact span
  | element token start stop children writes ih =>
    rw [kept_element_iff, parts_element, List.forall_mem_append, List.forall_mem_singleton, ownEvents_eq_nil_iff,
      List.forall_mem_flatMap]
    refine and_congr (forall₂_congr fun child member => ih child member (fresh.child member)) ?_
    simp [token?, ownOffsets, ownWrites]
  | existing node => exact absurd fresh (not_fromScratch_existing node)

/-- The log accounts for all that could not be taken as it was given. For one element it runs
through the children, the tag, the two spans and the attributes; in the whole there is one note
for each nameless element, each inverted pair of offsets and each write that stored no further
attribute. So the log is empty where there is nothing of the kind, and then all is kept. -/
theorem log_accounts_for_recoveries (fresh : draft.FromScratch) :
    (∀ token start stop children writes, (element token start stop children writes).build.events =
      children.flatMap (·.build.events) ++
        ((if Tag.nameOf token.raw = "" then [.namelessTag token.raw token.start token.stop] else []) ++
          (if stop < start then [.clampedSpan start stop] else []) ++
          (if token.stop < token.start then [.clampedSpan token.start token.stop] else []) ++
          (Attributes.rewrittenKeys [] writes).map (.overwrittenAttribute (Tag.nameOf token.raw)))) ∧
    draft.build.events.filterMap Event.tag? = draft.tokens.filter (Tag.nameOf ·.raw = "") ∧
    (draft.build.events.filterMap Event.tag?).length = draft.build.value.parts.countP (·.isNameless) ∧
    draft.build.events.filterMap Event.offsets? = draft.offsets.filter (fun given => given.2 < given.1) ∧
    (draft.build.events.filterMap Event.rewritten?).length + (draft.build.value.parts.map (·.storedCount)).sum =
      draft.writes.length ∧
    (draft.build.events = [] ↔
      (∀ path e, draft.build.value.descendant? path = some (.element e) → e.name.text ≠ "") ∧
      (∀ given ∈ draft.offsets, given.1 ≤ given.2) ∧
      ∀ part ∈ draft.parts, (part.ownWrites.map Prod.fst).Nodup) ∧
    (draft.build.events = [] ↔ draft.Kept draft.build.value) := by
  refine ⟨events_build_element, filterMap_tag?_events draft, fresh.countP_isNameless.symm,
    filterMap_offsets?_events draft, fresh.length_writes, ?_, fresh.kept_iff.symm⟩
  rw [events_build_eq_nil_iff, ← fresh.named_iff, offsets, List.forall_mem_flatMap]
  simp only [forall_and]

/-- A list of a text that ends before it starts and an item without a name, which does so too, as
does its tag. Either element has a key written twice. -/
def garbledList : Draft :=
  .element ⟨"<ul>", 0, 4⟩ 0 40
    [.text "é" 9 6, .element ⟨"</>", 12, 10⟩ 8 7 [.comment "x" 7 9] [("a", "1"), ("b", "2"), ("a", "1")]]
    [("id", "x"), ("id", "y")]

theorem fromScratch_garbledList : garbledList.FromScratch := by
  intro node member
  simp [garbledList, parts, partsAll] at member

theorem log_accounts_for_garbledList :
    garbledList.FromScratch ∧
      garbledList.build.events.filterMap Event.tag? = [⟨"</>", 12, 10⟩] ∧
      garbledList.build.value.parts.countP (·.isNameless) = 1 ∧
      garbledList.build.events.filterMap Event.offsets? = [(9, 6), (8, 7), (12, 10)] ∧
      (garbledList.build.events.filterMap Event.rewritten?).length +
        (garbledList.build.value.parts.map (·.storedCount)).sum = 5 ∧
      ¬ garbledList.Kept garbledList.build.value := by
  have fresh := fromScratch_garbledList
  obtain ⟨_, tags, nameless, offsets, writes, _, kept⟩ := log_accounts_for_recoveries fresh
  have given : garbledList.tokens.filter (Tag.nameOf ·.raw = "") = [⟨"</>", 12, 10⟩] := by decide +kernel
  have inverted : garbledList.offsets.filter (fun given => given.2 < given.1) = [(9, 6), (8, 7), (12, 10)] := by
    decide +kernel
  refine ⟨fresh, tags.trans given, ?_, offsets.trans inverted, writes, ?_⟩
  · rw [← nameless, tags, given, List.length_singleton]
  · intro all
    rw [kept.mpr all] at tags
    exact absurd (tags.trans given) (List.cons_ne_nil _ _).symm

end Draft
end MarkupTree
