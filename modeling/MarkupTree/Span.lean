import MarkupTree.Report

/-! Half-open spans `[start, stop)` of document offsets. Every way to make a span puts
`stop` at or after `start`: the lenient one moves `stop` up, the strict one refuses. -/
namespace MarkupTree

structure Span where
  start : Nat
  stop : Nat
deriving DecidableEq, Repr

namespace Span

instance : Inhabited Span := ⟨⟨0, 0⟩⟩

instance : Membership Nat Span where
  mem span offset := span.start ≤ offset ∧ offset < span.stop

instance (offset : Nat) (span : Span) : Decidable (offset ∈ span) :=
  inferInstanceAs (Decidable (span.start ≤ offset ∧ offset < span.stop))

instance : ToString Span where
  toString span := "[" ++ toString span.start ++ ", " ++ toString span.stop ++ ")"

def length (span : Span) : Nat := span.stop - span.start

def isEmpty (span : Span) : Bool := span.start == span.stop

/-- The span between the offsets, with `stop` moved up to an earlier `start`. -/
def ofOffsets (start stop : Nat) : Span := ⟨start, max start stop⟩

/-- As `ofOffsets`, with a note in the log when `stop` had to move. -/
def clamp (start stop : Nat) : Logged Span := do
  Logged.noteIf (stop < start) (.clampedSpan start stop)
  return ofOffsets start stop

/-- The span between the offsets, unless they are inverted. -/
def ofOffsets? (start stop : Nat) : Except Fault Span :=
  if stop < start then .error (.invertedSpan start stop) else .ok ⟨start, stop⟩

theorem mem_iff {offset : Nat} {span : Span} : offset ∈ span ↔ span.start ≤ offset ∧ offset < span.stop :=
  Iff.rfl

@[simp] theorem start_ofOffsets (start stop : Nat) : (ofOffsets start stop).start = start := rfl

theorem start_le_stop_ofOffsets (start stop : Nat) :
    (ofOffsets start stop).start ≤ (ofOffsets start stop).stop := Nat.le_max_left _ _

/-- Offsets in order are kept as they are. -/
theorem ofOffsets_eq_iff {start stop : Nat} : ofOffsets start stop = ⟨start, stop⟩ ↔ start ≤ stop := by
  rw [ofOffsets, mk.injEq]
  omega

@[simp] theorem value_clamp (start stop : Nat) : (clamp start stop).value = ofOffsets start stop := rfl

theorem events_clamp (start stop : Nat) :
    (clamp start stop).events = if stop < start then [.clampedSpan start stop] else [] := by
  simp [clamp]

/-- The strict reading accepts what the lenient one leaves alone. -/
theorem ofOffsets?_eq_ok_iff {start stop : Nat} {span : Span} :
    ofOffsets? start stop = .ok span ↔ start ≤ stop ∧ span = ofOffsets start stop := by
  unfold ofOffsets? ofOffsets
  split
  · simp; omega
  · rename_i ordered
    rw [Nat.max_eq_right (by omega)]
    constructor
    · intro h; cases h; exact ⟨by omega, rfl⟩
    · rintro ⟨_, rfl⟩; rfl

end Span
end MarkupTree
