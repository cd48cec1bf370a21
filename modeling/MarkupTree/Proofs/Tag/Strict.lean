import Mathlib.Logic.ExistsUnique
import MarkupTree.Proofs.Draft.Recoveries

/-! The strict reading beside the lenient one. Each tag text has one verdict, and a name that is refused
is refused for its first foreign character. A search through the bytes of the name finds the same place:
foreign characters are single bytes, and the bytes of a longer character are none of theirs. -/
namespace MarkupTree.Tag

/-- The byte of a foreign character. -/
def isForeignByte (byte : UInt8) : Bool :=
  byte == '<'.toUInt8 || byte == '='.toUInt8 || byte == '"'.toUInt8

theorem toList_toUTF8 (text : String) : text.toUTF8.data.toList = text.toList.flatMap String.utf8EncodeChar := by
  have encoded : text.toUTF8 = text.toList.utf8Encode := by
    rw [String.toUTF8_eq_toByteArray, ← String.toByteArray_ofList, String.ofList_toList]
  rw [encoded, List.utf8Encode, List.data_toByteArray]

/-- A byte with a mark of its own has the bits of that mark. -/
theorem le_toNat_or {mark : UInt8} (high : 128 ≤ mark.toNat) (bits : UInt8) : 128 ≤ (bits ||| mark).toNat := by
  rw [UInt8.toNat_or]
  exact Nat.le_trans high Nat.right_le_or

/-- Each byte of a longer character is marked by its high bit. -/
theorem forall_mem_utf8EncodeChar {c : Char} (long : c.utf8Size ≠ 1) :
    ∀ byte ∈ String.utf8EncodeChar c, 128 ≤ byte.toNat := by
  have first : 128 ≤ (192 : UInt8).toNat ∧ 128 ≤ (224 : UInt8).toNat ∧ 128 ≤ (240 : UInt8).toNat := by decide
  have later : 128 ≤ (128 : UInt8).toNat := by decide
  rcases c.utf8Size_eq with one | two | three | four
  · contradiction
  · simp only [String.utf8EncodeChar_eq_cons_cons two, List.forall_mem_cons]
    exact ⟨le_toNat_or first.1 _, le_toNat_or later _, List.forall_mem_nil _⟩
  · simp only [String.utf8EncodeChar_eq_cons_cons_cons three, List.forall_mem_cons]
    exact ⟨le_toNat_or first.2.1 _, le_toNat_or later _, le_toNat_or later _, List.forall_mem_nil _⟩
  · simp only [String.utf8EncodeChar_eq_cons_cons_cons_cons four, List.forall_mem_cons]
    exact ⟨le_toNat_or first.2.2 _, le_toNat_or later _, le_toNat_or later _, le_toNat_or later _,
      List.forall_mem_nil _⟩

theorem isForeignByte_of_high {byte : UInt8} (high : 128 ≤ byte.toNat) : isForeignByte byte = false := by
  have apart {other : UInt8} (low : other.toNat < 128) : (byte == other) = false := by
    rw [beq_eq_false_iff_ne]
    rintro rfl
    omega
  simp only [isForeignByte, Bool.or_eq_false_iff]
  exact ⟨⟨apart (by decide), apart (by decide)⟩, apart (by decide)⟩

theorem isForeign_iff {c : Char} : isForeign c = true ↔ c = '<' ∨ c = '=' ∨ c = '"' := by
  simp [isForeign, or_assoc]

/-- Characters of a single byte are told apart by it. -/
theorem eq_of_toUInt8_eq {c other : Char} (short : c.utf8Size = 1) (otherShort : other.utf8Size = 1)
    (same : c.toUInt8 = other.toUInt8) : c = other := by
  have low {c : Char} (short : c.utf8Size = 1) : c.toUInt8.toNat = c.val.toNat := by
    have bound : c.val.toNat ≤ 127 := UInt32.le_iff_toNat_le.mp (Char.utf8Size_eq_one_iff.mp short)
    rw [Char.toUInt8, UInt32.toNat_toUInt8]
    omega
  apply Char.ext
  apply UInt32.toNat_inj.mp
  rw [← low short, ← low otherShort, same]

theorem isForeignByte_toUInt8 {c : Char} (short : c.utf8Size = 1) : isForeignByte c.toUInt8 = isForeign c := by
  have same {other : Char} (otherShort : other.utf8Size = 1) : (c.toUInt8 == other.toUInt8) = (c == other) := by
    rw [Bool.eq_iff_iff, beq_iff_eq, beq_iff_eq]
    exact ⟨eq_of_toUInt8_eq short otherShort, congrArg Char.toUInt8⟩
  rw [isForeignByte, isForeign, same (by decide), same (by decide), same (by decide)]

/-- A character is foreign if its first byte is, and no later byte is. -/
theorem findIdx?_utf8EncodeChar (c : Char) :
    (String.utf8EncodeChar c).findIdx? isForeignByte = if isForeign c then some 0 else none := by
  by_cases short : c.utf8Size = 1
  · rw [String.utf8EncodeChar_eq_singleton short, List.findIdx?_singleton]
    exact if_congr (iff_of_eq (congrArg (· = true) (isForeignByte_toUInt8 short))) rfl rfl
  · have own : isForeign c = false := by
      rw [Bool.eq_false_iff, Ne, isForeign_iff]
      rintro (rfl | rfl | rfl) <;> contradiction
    rw [own, if_neg Bool.false_ne_true, List.findIdx?_eq_none_iff]
    exact fun byte member => isForeignByte_of_high (forall_mem_utf8EncodeChar short byte member)

/-- The search through the bytes finds the place that the search through the characters finds. -/
theorem foreign?_eq_findIdx? (chars : List Char) :
    (foreign? chars).map Prod.snd = (chars.flatMap String.utf8EncodeChar).findIdx? isForeignByte := by
  induction chars with
  | nil => rfl
  | cons c chars ih =>
    rw [List.flatMap_cons, List.findIdx?_append, findIdx?_utf8EncodeChar, ← ih, foreign?]
    cases isForeign c
    · simp [Function.comp_def, Nat.add_comm]
    · rfl

/-- Where the first foreign character of a name stands, among its characters and among its bytes. -/
structure FirstForeign (name : String) (found : Char) (offset : Nat) : Prop where
  foreign : isForeign found = true
  split : ∃ before after : String, name = before ++ String.singleton found ++ after ∧
    (∀ c ∈ before.toList, isForeign c = false) ∧ before.utf8ByteSize = offset
  byte : name.toUTF8.data[offset]?.map Char.ofUInt8 = some found
  earlier : ∀ place < offset, ∀ byte, name.toUTF8.data[place]? = some byte → isForeignByte byte = false

theorem exists_append_of_foreign? {chars : List Char} {found : Char} {offset : Nat}
    (search : foreign? chars = some (found, offset)) :
    ∃ before after, chars = before ++ found :: after ∧ isForeign found = true ∧
      (∀ c ∈ before, isForeign c = false) ∧ (String.ofList before).utf8ByteSize = offset := by
  induction chars generalizing offset with
  | nil => cases search
  | cons c chars ih =>
    unfold foreign? at search
    cases foreign : isForeign c with
    | true =>
      simp only [foreign, if_true, Option.some.injEq, Prod.mk.injEq] at search
      obtain ⟨rfl, rfl⟩ := search
      exact ⟨[], chars, rfl, foreign, by simp, rfl⟩
    | false =>
      simp only [foreign, Bool.false_eq_true, if_false, Option.map_eq_some_iff] at search
      obtain ⟨⟨_, rest⟩, later, same⟩ := search
      cases same
      obtain ⟨before, after, rfl, other, own, size⟩ := ih later
      refine ⟨c :: before, after, rfl, other, List.forall_mem_cons.mpr ⟨foreign, own⟩, ?_⟩
      rw [← size]
      simp

/-- A foreign character is its one byte. -/
theorem utf8EncodeChar_of_isForeign {c : Char} (foreign : isForeign c = true) :
    String.utf8EncodeChar c = [c.toUInt8] ∧ Char.ofUInt8 c.toUInt8 = c := by
  rcases isForeign_iff.mp foreign with rfl | rfl | rfl
  all_goals exact ⟨rfl, rfl⟩

theorem firstForeign_of_foreign? {name : String} {found : Char} {offset : Nat}
    (search : foreign? name.toList = some (found, offset)) : FirstForeign name found offset := by
  obtain ⟨before, after, split, foreign, own, size⟩ := exists_append_of_foreign? search
  have places := foreign?_eq_findIdx? name.toList
  rw [search, ← toList_toUTF8] at places
  obtain ⟨inside, byte, earlier⟩ := List.findIdx?_eq_some_iff_getElem.mp places.symm
  refine ⟨foreign, ⟨String.ofList before, String.ofList after, ?_, ?_, size⟩, ?_, ?_⟩
  · apply String.toList_injective
    simp [split]
  · simpa using own
  · obtain ⟨single, char⟩ := utf8EncodeChar_of_isForeign foreign
    have bytes : name.toUTF8.data.toList =
        (String.ofList before).toUTF8.data.toList ++ found.toUInt8 :: after.flatMap String.utf8EncodeChar := by
      rw [toList_toUTF8, toList_toUTF8, split, String.toList_ofList, List.flatMap_append, List.flatMap_cons, single]
      rfl
    have length : (String.ofList before).toUTF8.data.toList.length = offset := by
      rw [← size]
      rfl
    rw [← Array.getElem?_toList, bytes, List.getElem?_append_right (Nat.le_of_eq length), length, Nat.sub_self]
    exact congrArg some char
  · intro place ahead byte there
    rw [← Array.getElem?_toList] at there
    obtain ⟨_, rfl⟩ := List.getElem?_eq_some_iff.mp there
    simpa using earlier place ahead

/-- What the strict reading can make of a tag text. -/
inductive Verdict where
  | empty
  | nameless
  | named
  | spliced

namespace Verdict

/-- The verdict on a tag text, by what the lenient reading finds there, and the answer that goes with it. -/
def Holds (raw : String) : Verdict → Prop
  | .empty => raw = "" ∧ strictNameOf raw = .error .emptyTag
  | .nameless => raw ≠ "" ∧ nameOf raw = "" ∧ strictNameOf raw = .error (.missingName raw)
  | .named =>
    nameOf raw ≠ "" ∧ (∀ c ∈ (nameOf raw).toList, isForeign c = false) ∧ strictNameOf raw = .ok (nameOf raw)
  | .spliced =>
    (∃ c ∈ (nameOf raw).toList, isForeign c = true) ∧
      ∃ found offset, FirstForeign (nameOf raw) found offset ∧
        strictNameOf raw = .error (.foreignCharacter (nameOf raw) found offset)

/-- The verdict that an answer tells. -/
def ofAnswer : Except Fault String → Verdict
  | .ok _ => .named
  | .error .emptyTag => .empty
  | .error (.missingName _) => .nameless
  | .error (.foreignCharacter ..) | .error (.invertedSpan ..) => .spliced

variable {raw : String}

theorem Holds.eq_ofAnswer {verdict : Verdict} (holds : verdict.Holds raw) : verdict = ofAnswer (strictNameOf raw) := by
  cases verdict with
  | empty => rw [holds.2, ofAnswer]
  | nameless => rw [holds.2.2, ofAnswer]
  | named => rw [holds.2.2, ofAnswer]
  | spliced =>
    obtain ⟨_, found, offset, _, answer⟩ := holds
    rw [answer, ofAnswer]

theorem exists_holds (raw : String) : ∃ verdict : Verdict, verdict.Holds raw := by
  by_cases given : raw = ""
  · exact ⟨.empty, given, given ▸ strictNameOf_empty⟩
  by_cases found : nameOf raw = ""
  · exact ⟨.nameless, given, found, strictNameOf_of_nameless given found⟩
  cases search : foreign? (nameOf raw).toList with
  | none =>
    have own := foreign?_eq_none_iff.mp search
    exact ⟨.named, found, own, strictNameOf_eq_ok_iff.mpr ⟨rfl, found, own⟩⟩
  | some place =>
    obtain ⟨_, _, split, foreign, _⟩ := exists_append_of_foreign? search
    refine ⟨.spliced, ⟨place.1, by simp [split], foreign⟩, place.1, place.2, firstForeign_of_foreign? search, ?_⟩
    rw [strictNameOf_of_named found, refuseForeign, search]

theorem Holds.nameOf_eq_empty_iff {verdict : Verdict} (holds : verdict.Holds raw) :
    nameOf raw = "" ↔ verdict = .empty ∨ verdict = .nameless := by
  cases verdict with
  | empty =>
    rw [holds.1]
    exact iff_of_true rfl (.inl rfl)
  | nameless => exact iff_of_true holds.2.1 (.inr rfl)
  | named => exact iff_of_false holds.1 (by simp)
  | spliced =>
    obtain ⟨⟨c, member, _⟩, _⟩ := holds
    refine iff_of_false (fun nameless => ?_) (by simp)
    rw [nameless] at member
    cases member

end Verdict

/-- The building of an element notes the tag if it has no name, and no other tag. -/
theorem filterMap_tag?_events_build (token : Token) (children : List Node) (start stop : Nat) :
    (Element.build token children start stop).events.filterMap Event.tag? =
      if nameOf token.raw = "" then [token] else [] := by
  have silent (start stop : Nat) : (Span.clamp start stop).events.filterMap Event.tag? = [] := by
    rw [Span.events_clamp]
    split <;> rfl
  rw [Element.events_build, List.filterMap_append, List.filterMap_append, silent, silent, List.append_nil,
    List.append_nil]
  by_cases nameless : nameOf token.raw = "" <;> simp [nameless, Event.tag?]

/-- Each tag text has one verdict: the strict reading gives the name that the lenient one finds, or says
what is wrong there, and names the place of the first foreign character. An element is noted to have no
name where the tag is empty or nameless, and not where there is a name to refuse. -/
theorem strictNameOf_one_verdict (raw : String) :
    (∃! verdict : Verdict, verdict.Holds raw) ∧
    ∀ tagStart tagStop children start stop,
      ((Element.build ⟨raw, tagStart, tagStop⟩ children start stop).events.filterMap Event.tag? =
          [⟨raw, tagStart, tagStop⟩] ↔ Verdict.empty.Holds raw ∨ Verdict.nameless.Holds raw) ∧
      ((Element.build ⟨raw, tagStart, tagStop⟩ children start stop).events.filterMap Event.tag? = [] ↔
        Verdict.named.Holds raw ∨ Verdict.spliced.Holds raw) := by
  obtain ⟨verdict, holds⟩ := Verdict.exists_holds raw
  have unique {other : Verdict} (again : other.Holds raw) : other = verdict :=
    again.eq_ofAnswer.trans holds.eq_ofAnswer.symm
  have only (other : Verdict) : other.Holds raw ↔ verdict = other :=
    ⟨fun again => (unique again).symm, fun same => same ▸ holds⟩
  refine ⟨⟨verdict, holds, fun _ => unique⟩, fun tagStart tagStop children start stop => ?_⟩
  have named : verdict = .named ∨ verdict = .spliced ↔ nameOf raw ≠ "" := by
    rw [Ne, holds.nameOf_eq_empty_iff]
    cases verdict <;> simp
  rw [filterMap_tag?_events_build, only, only, only, only, ← holds.nameOf_eq_empty_iff, named]
  by_cases nameless : nameOf raw = "" <;> simp [nameless]

end MarkupTree.Tag
