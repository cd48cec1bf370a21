import MarkupTree.Span

/-! Lexed tags and the names read from them. The name is the first run of non-blank characters
between the delimiters `<` and `>` or `/>`, each of which is dropped only where it stands. The
lenient reading answers `""` where there is no name; the strict one says what is wrong. Both work
on characters, so neither can cut a character in two. -/
namespace MarkupTree.Tag

/-- The five ASCII blanks. No other character separates the parts of a tag, neither a
vertical tab nor any blank beyond ASCII. -/
def isBlank (c : Char) : Bool :=
  c == ' ' || c == '\t' || c == '\n' || c == '\x0c' || c == '\r'

/-- Characters that stand in a name only when two tags have run together. -/
def isForeign (c : Char) : Bool := c == '<' || c == '=' || c == '"'

def dropOpening : List Char → List Char
  | '<' :: rest => rest
  | chars => chars

/-- Drops a closing `>` and a `/` directly before it. A `/` at the very end stays. -/
def dropClosing (chars : List Char) : List Char :=
  match chars.reverse with
  | '>' :: '/' :: rest => rest.reverse
  | '>' :: rest => rest.reverse
  | _ => chars

def firstWord? (chars : List Char) : Option (List Char) :=
  match chars.dropWhile isBlank with
  | [] => none
  | rest => some (rest.takeWhile (!isBlank ·))

/-- What both readings find in a tag. -/
def name? (raw : String) : Option String :=
  (firstWord? (dropClosing (dropOpening raw.toList))).map String.ofList

/-- The name in a tag, or `""` if it has none. -/
def nameOf (raw : String) : String := (name? raw).getD ""

/-- The first foreign character, with the number of UTF-8 bytes before it. -/
def foreign? : List Char → Option (Char × Nat)
  | [] => none
  | c :: rest =>
    if isForeign c then some (c, 0)
    else (foreign? rest).map fun (found, offset) => (found, c.utf8Size + offset)

def refuseForeign (name : String) : Except Fault String :=
  match foreign? name.toList with
  | some (found, offset) => .error (.foreignCharacter name found offset)
  | none => .ok name

/-- The name in a tag. A text that is empty has no tag to name, so that is said first. -/
def strictNameOf (raw : String) : Except Fault String :=
  if raw.isEmpty then .error .emptyTag
  else match name? raw with
    | none => .error (.missingName raw)
    | some name => refuseForeign name

/-- A lexed tag, which keeps the lexer's offsets as they are, inverted or not. -/
structure Token where
  raw : String
  start : Nat
  stop : Nat
deriving DecidableEq, Repr

/-- A name with the span of the opening tag it was read from, never that of the whole
element. Names are equal when both agree. -/
structure Name where
  text : String
  span : Span
deriving DecidableEq, Repr

def Name.build (text : String) (start stop : Nat) : Logged Name :=
  return ⟨text, ← Span.clamp start stop⟩

@[simp] theorem Name.value_build (text : String) (start stop : Nat) :
    (Name.build text start stop).value = ⟨text, .ofOffsets start stop⟩ := by
  simp [Name.build]

@[simp] theorem Name.events_build (text : String) (start stop : Nat) :
    (Name.build text start stop).events = (Span.clamp start stop).events := by
  simp [Name.build]

/-- The first word as the lenient reading takes it, without characters if there is none. -/
def firstWord (chars : List Char) : List Char := (firstWord? chars).getD []

def nameChars (raw : List Char) : List Char := firstWord (dropClosing (dropOpening raw))

theorem firstWord_eq (chars : List Char) : firstWord chars = (chars.dropWhile isBlank).takeWhile (!isBlank ·) := by
  unfold firstWord firstWord?
  cases chars.dropWhile isBlank <;> rfl

/-- A word has characters, so it is not confused with the lack of one. -/
theorem firstWord?_eq (chars : List Char) :
    firstWord? chars = if firstWord chars = [] then none else some (firstWord chars) := by
  have unblank := List.head?_dropWhile_not isBlank chars
  unfold firstWord firstWord?
  cases begun : chars.dropWhile isBlank with
  | nil => rfl
  | cons c rest =>
    have starts : isBlank c = false := by simpa [begun] using unblank
    simp [starts]

@[simp] theorem toList_nameOf (raw : String) : (nameOf raw).toList = nameChars raw.toList := by
  unfold nameOf name? nameChars firstWord
  cases firstWord? (dropClosing (dropOpening raw.toList)) <;> simp

/-- Both readings agree on whether there is a name, and on which. -/
theorem name?_eq (raw : String) : name? raw = if nameOf raw = "" then none else some (nameOf raw) := by
  rw [name?, firstWord?_eq, ← nameChars, ← toList_nameOf]
  by_cases nameless : nameOf raw = ""
  · rw [if_pos (String.toList_eq_nil_iff.mpr nameless), if_pos nameless, Option.map_none]
  · rw [if_neg (mt String.toList_eq_nil_iff.mp nameless), if_neg nameless, Option.map_some, String.ofList_toList]

/-- A name holds no blank. -/
theorem not_isBlank_of_mem_nameChars {c : Char} {raw : List Char} (h : c ∈ nameChars raw) :
    isBlank c = false := by
  rw [nameChars, firstWord_eq] at h
  simpa using List.all_eq_true.mp List.all_takeWhile c h

@[simp] theorem dropOpening_cons (rest : List Char) : dropOpening ('<' :: rest) = rest := rfl

theorem dropClosing_append_selfClosing (chars : List Char) : dropClosing (chars ++ ['/', '>']) = chars := by
  simp [dropClosing]

theorem dropClosing_append_close {chars : List Char} (unslashed : ¬ ['/'] <:+ chars) :
    dropClosing (chars ++ ['>']) = chars := by
  rcases List.eq_nil_or_concat chars with rfl | ⟨front, last, rfl⟩
  · rfl
  · rw [List.concat_eq_append] at unslashed ⊢
    have other : last ≠ '/' := fun same => unslashed (same ▸ List.suffix_append front [last])
    simp [dropClosing, other]

/-- Foreign characters are found wherever there is one. -/
theorem foreign?_eq_none_iff {chars : List Char} : foreign? chars = none ↔ ∀ c ∈ chars, isForeign c = false := by
  induction chars with
  | nil => simp [foreign?]
  | cons c rest ih =>
    unfold foreign?
    cases foreign : isForeign c <;> simp [foreign, ih]

variable {raw : String}

theorem strictNameOf_empty : strictNameOf "" = .error .emptyTag := rfl

theorem strictNameOf_of_nameless (given : raw ≠ "") (nameless : nameOf raw = "") :
    strictNameOf raw = .error (.missingName raw) := by
  rw [strictNameOf, if_neg (mt String.isEmpty_iff.mp given), name?_eq, if_pos nameless]

theorem strictNameOf_of_named (named : nameOf raw ≠ "") : strictNameOf raw = refuseForeign (nameOf raw) := by
  have given : raw ≠ "" := by
    rintro rfl
    exact named rfl
  rw [strictNameOf, if_neg (mt String.isEmpty_iff.mp given), name?_eq, if_neg named]

theorem refuseForeign_eq_ok_iff {text name : String} :
    refuseForeign text = .ok name ↔ name = text ∧ ∀ c ∈ text.toList, isForeign c = false := by
  rw [← foreign?_eq_none_iff, refuseForeign]
  cases foreign? text.toList <;> simp [eq_comm]

/-- What the strict reading lets pass is the name, there is one, and no foreign character is in it. -/
theorem strictNameOf_eq_ok_iff {name : String} :
    strictNameOf raw = .ok name ↔
      name = nameOf raw ∧ name ≠ "" ∧ ∀ c ∈ name.toList, isForeign c = false := by
  by_cases named : nameOf raw = ""
  · refine iff_of_false (fun read => ?_) fun ⟨same, nonempty, _⟩ => nonempty (same.trans named)
    by_cases given : raw = ""
    · rw [given, strictNameOf_empty] at read
      cases read
    · rw [strictNameOf_of_nameless given named] at read
      cases read
  · rw [strictNameOf_of_named named, refuseForeign_eq_ok_iff]
    constructor
    · rintro ⟨rfl, own⟩
      exact ⟨rfl, named, own⟩
    · rintro ⟨rfl, _, own⟩
      exact ⟨rfl, own⟩

example : nameOf "<input\n\ttype=\"text\"/>" = "input" := by decide +kernel
example : nameOf "<p/" = "p/" := by decide +kernel

end MarkupTree.Tag
