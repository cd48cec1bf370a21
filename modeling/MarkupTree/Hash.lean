/-! Hashing. `SipHash` is the keyed 64-bit hash of a list of bytes, with the number of rounds for
each word and at the end left open. What values feed to a hash is data of its own, `HashWrite`:
equal values must feed the same writes, whichever hash turns them into a number. A `HashedSet`
compares values only where their hashes agree. -/
namespace MarkupTree

namespace SipHash

structure State where
  v0 : UInt64
  v1 : UInt64
  v2 : UInt64
  v3 : UInt64

def rotate (word : UInt64) (count : UInt64) : UInt64 := (word <<< count) ||| (word >>> (64 - count))

def State.init (key0 key1 : UInt64) : State where
  v0 := key0 ^^^ 0x736f6d6570736575
  v1 := key1 ^^^ 0x646f72616e646f6d
  v2 := key0 ^^^ 0x6c7967656e657261
  v3 := key1 ^^^ 0x7465646279746573

def State.round (s : State) : State :=
  let a := s.v0 + s.v1
  let b := rotate s.v1 13 ^^^ a
  let c := s.v2 + s.v3
  let d := rotate s.v3 16 ^^^ c
  let e := rotate a 32 + d
  let f := c + b
  ⟨e, rotate b 17 ^^^ f, rotate f 32, rotate d 21 ^^^ e⟩

def State.rounds (s : State) : Nat → State
  | 0 => s
  | count + 1 => s.round.rounds count

/-- Mixes in one word. -/
def State.absorb (rounds : Nat) (s : State) (word : UInt64) : State :=
  let mixed := State.rounds { s with v3 := s.v3 ^^^ word } rounds
  { mixed with v0 := mixed.v0 ^^^ word }

/-- The word whose bytes these are, the least first. -/
def word (bytes : List UInt8) : UInt64 := bytes.foldr (fun byte high => high <<< 8 ||| byte.toUInt64) 0

/-- Mixes in all bytes, eight to a word. The last word is filled with zeros below the
length of the input modulo 256. -/
def State.absorbAll (rounds : Nat) (length : UInt64) (s : State) : List UInt8 → State
  | a :: b :: c :: d :: e :: f :: g :: h :: rest =>
    (s.absorb rounds (word [a, b, c, d, e, f, g, h])).absorbAll rounds length rest
  | last => s.absorb rounds (word last ||| length <<< 56)

def hash (rounds finalRounds : Nat) (key0 key1 : UInt64) (bytes : List UInt8) : UInt64 :=
  let s := (State.init key0 key1).absorbAll rounds bytes.length.toUInt64 bytes
  let last := State.rounds { s with v2 := s.v2 ^^^ 0xff } finalRounds
  last.v0 ^^^ last.v1 ^^^ last.v2 ^^^ last.v3

example : hash 2 4 0x0706050403020100 0x0f0e0d0c0b0a0908 [] = 0x726fdb47dd0e0e31 := by decide +kernel

example : hash 2 4 0x0706050403020100 0x0f0e0d0c0b0a0908 [0, 1, 2, 3, 4, 5, 6, 7, 8, 9, 10, 11, 12, 13, 14] =
    0xa129ca6149be45e5 := by decide +kernel

end SipHash

inductive HashWrite where
  | number (value : Nat)
  | word (value : UInt64)
  | text (value : String)
deriving DecidableEq, Repr

namespace HashWrite

/-- The eight bytes of a word, the least first. -/
def wordBytes (word : UInt64) : List UInt8 :=
  (List.range 8).map fun place => (word >>> (8 * place).toUInt64).toUInt8

/-- A byte that no UTF-8 text holds stands after each text, so that neighbouring texts
cannot run together. -/
def bytes : HashWrite → List UInt8
  | .number value => wordBytes value.toUInt64
  | .word value => wordBytes value
  | .text value => value.toUTF8.toList ++ [0xff]

def digest (writes : List HashWrite) : UInt64 := SipHash.hash 1 3 0 0 (writes.flatMap bytes)

end HashWrite

/-- A value that equals a member is found again as long as equal values have equal hashes. -/
structure HashedSet (α : Type) where
  /-- In the order in which they came. -/
  members : List α

namespace HashedSet
variable {α : Type} [BEq α] [Hashable α]

def empty : HashedSet α := ⟨[]⟩

def size (set : HashedSet α) : Nat := set.members.length

def contains (set : HashedSet α) (value : α) : Bool :=
  set.members.any fun member => hash member == hash value && member == value

/-- Adds a value unless it is there. The answer says whether it was new. -/
def insert (set : HashedSet α) (value : α) : Bool × HashedSet α :=
  if set.contains value then (false, set) else (true, ⟨set.members ++ [value]⟩)

def insertAll (set : HashedSet α) : List α → List Bool × HashedSet α
  | [] => ([], set)
  | value :: rest =>
    let (fresh, next) := set.insert value
    let (others, last) := next.insertAll rest
    (fresh :: others, last)

end HashedSet

end MarkupTree
