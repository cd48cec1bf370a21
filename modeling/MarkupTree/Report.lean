/-! What is reported of bad input. The strict readers refuse it with a fault. The lenient
operations never fail; where they recover from bad input, or overwrite something, they note an
event. `Logged` carries the events in the order in which they were noted, so a value and its log
stay pure data. -/
namespace MarkupTree

/-- Each constructor is a cause and keeps what the message needs; the wording lives in
`Fault.message` alone. -/
inductive Fault where
  /-- The tag text has no characters at all. -/
  | emptyTag
  /-- Nothing is left of the tag text once its delimiters and blanks are gone. -/
  | missingName (raw : String)
  /-- The name holds a character that belongs to other parts of a tag. The offset
  counts the UTF-8 bytes of the name before it. -/
  | foreignCharacter (name : String) (found : Char) (offset : Nat)
  /-- A span that stops before it starts. -/
  | invertedSpan (start stop : Nat)
deriving DecidableEq, Repr

def Fault.message : Fault → String
  | .emptyTag => "tag text is empty"
  | .missingName raw => "tag `" ++ raw ++ "` has no name"
  | .foreignCharacter name found offset =>
    "tag name `" ++ name ++ "` contains invalid byte '" ++ found.toString ++ "' at offset " ++ toString offset
  | .invertedSpan start stop => "inverted range " ++ toString start ++ ".." ++ toString stop

inductive Event where
  /-- A tag without a name. The offsets are the tag's own, as given. -/
  | namelessTag (raw : String) (start stop : Nat)
  /-- An inverted span was clamped. The offsets are those given. -/
  | clampedSpan (start stop : Nat)
  /-- An attribute was written again, be it with the same value. -/
  | overwrittenAttribute (element key : String)
deriving DecidableEq, Repr

namespace Event

inductive Level where
  | debug
  | trace
deriving DecidableEq, Repr

inductive Field where
  | text (value : String)
  | offset (value : Nat)
deriving DecidableEq, Repr

/-- Recoveries from bad input are for debugging; an overwrite is ordinary and only traced. -/
def level : Event → Level
  | .namelessTag .. | .clampedSpan .. => .debug
  | .overwrittenAttribute .. => .trace

def message : Event → String
  | .namelessTag .. => "malformed tag text, using empty element name"
  | .clampedSpan .. => "inverted range, clamping end to start"
  | .overwrittenAttribute .. => "attribute overwritten"

def fields : Event → List (String × Field)
  | .namelessTag raw start stop => [("tag", .text raw), ("start", .offset start), ("end", .offset stop)]
  | .clampedSpan start stop => [("start", .offset start), ("end", .offset stop)]
  | .overwrittenAttribute element key => [("element", .text element), ("key", .text key)]

end Event

/-- A value with the events of its construction, oldest first. -/
structure Logged (α : Type) where
  value : α
  events : List Event
deriving Repr

namespace Logged
variable {α β : Type}

def noteIf (condition : Prop) [Decidable condition] (event : Event) : Logged Unit :=
  ⟨(), if condition then [event] else []⟩

instance : Monad Logged where
  pure value := ⟨value, []⟩
  bind first next := ⟨(next first.value).value, first.events ++ (next first.value).events⟩

@[simp] theorem value_pure (a : α) : (pure a : Logged α).value = a := rfl

@[simp] theorem events_pure (a : α) : (pure a : Logged α).events = [] := rfl

@[simp] theorem value_bind (first : Logged α) (next : α → Logged β) :
    (first >>= next).value = (next first.value).value := rfl

@[simp] theorem events_bind (first : Logged α) (next : α → Logged β) :
    (first >>= next).events = first.events ++ (next first.value).events := rfl

@[simp] theorem value_map (f : α → β) (logged : Logged α) : (f <$> logged).value = f logged.value := rfl

@[simp] theorem events_map (f : α → β) (logged : Logged α) : (f <$> logged).events = logged.events :=
  List.append_nil _

@[simp] theorem events_noteIf (condition : Prop) [Decidable condition] (event : Event) :
    (noteIf condition event).events = if condition then [event] else [] := rfl

instance : LawfulMonad Logged := LawfulMonad.mk' Logged
  (fun _ => by simp [Functor.map])
  (fun _ _ => rfl)
  (fun _ _ _ => by simp only [bind, List.append_assoc])

end Logged

end MarkupTree
