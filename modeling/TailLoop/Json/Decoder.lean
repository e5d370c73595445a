import TailLoop.Json.Printer
import TailLoop.Json.Reader

/-!
# Decoding JSON values

Decoders turn `Json` values into data, from left to right, and report the first thing that does not
fit. A decoder is given the room that is left: how many more containers may be opened inside each
other. Opening one more than that counts as a fault of the text.

* `Decoder.tuple`, `Decoder.record`: fixed sequences, and records written as objects or sequences.
* `Decoder.choice`: alternatives, written as a name or as an object with one member.
-/

namespace TailLoop

/-- What a decoder found in place of what it wanted. -/
inductive Found where
  | null
  | boolean (value : Bool)
  | integer (value : Int)
  | float (value : Float)
  | text (value : String)
  | sequence
  | map
  | bareName

/-- Why a value cannot be decoded. -/
inductive DecodeError where
  /-- The text itself is at fault. -/
  | text (fault : Json.Fault)
  | missingField (name : String)
  | duplicateField (name : String)
  | unknownVariant (name : String) (expected : List String)
  /-- Something of the wrong kind. -/
  | invalidType (found : Found) (expected : String)
  /-- Something of the right kind that is not allowed. -/
  | invalidValue (found : Found) (expected : String)
  /-- A sequence that is too short. -/
  | invalidLength (length : Nat) (expected : String)

/-- How a finding is described. -/
def Found.describe : Found → String
  | .null => "null"
  | .boolean b => "boolean `" ++ (if b then "true" else "false") ++ "`"
  | .integer i => "integer `" ++ Decimal.intText i ++ "`"
  | .float x => "floating point `" ++ Json.floatText x ++ "`"
  | .text s => "string " ++ Text.showText s
  | .sequence => "sequence"
  | .map => "map"
  | .bareName => "unit variant"

/-- A name between backticks. -/
def tick (name : String) : String := "`" ++ name ++ "`"

/-- The names that were expected, as a list in words. -/
def oneOf : List String → String
  | [] => "there are no variants"
  | [a] => "expected " ++ tick a
  | [a, b] => "expected " ++ tick a ++ " or " ++ tick b
  | names => "expected one of " ++ ", ".intercalate (names.map tick)

/-- The wording of an error. -/
def DecodeError.message : DecodeError → String
  | .text .endOfText => "<eof>"
  | .text .malformed => "<syntax>"
  | .missingField name => "missing field " ++ tick name
  | .duplicateField name => "duplicate field " ++ tick name
  | .unknownVariant name expected => "unknown variant " ++ tick name ++ ", " ++ oneOf expected
  | .invalidType found expected => "invalid type: " ++ found.describe ++ ", expected " ++ expected
  | .invalidValue found expected => "invalid value: " ++ found.describe ++ ", expected " ++ expected
  | .invalidLength n expected =>
    "invalid length " ++ Decimal.digitsText n ++ ", expected " ++ expected

/-! ## Leaves -/

/-- A decoder: from the room that is left and a value to data. -/
abbrev Decoder (α : Type) := Nat → Json → Except DecodeError α

namespace Decoder

variable {α β σ : Type}

/-- Fails because of the text. -/
def faulty (f : Json.Fault) : Except DecodeError α := .error (.text f)

/-- What stands in place of the wanted data; a place without a value is a fault of its own. -/
def found : Json → Except DecodeError Found
  | .null => .ok .null
  | .bool b => .ok (.boolean b)
  | .num (.int i) => .ok (.integer i)
  | .num (.float x) => .ok (.float x)
  | .str s => .ok (.text s)
  | .arr .. => .ok .sequence
  | .obj .. => .ok .map
  | .unreadable _ f _ => faulty f

/-- Fails because the value is of another kind than the expected one. -/
def mismatch (expected : String) (j : Json) : Except DecodeError α := do
  let f ← found j
  .error (.invalidType f expected)

/-- A text. -/
def text : Decoder String
  | _, .str s => .ok s
  | _, j => mismatch "a string" j

/-- A truth value. -/
def boolean : Decoder Bool
  | _, .bool b => .ok b
  | _, j => mismatch "a boolean" j

/-- A text of exactly one character. -/
def char : Decoder Char
  | _, .str s =>
    match s.toList with
    | [c] => .ok c
    | _ => .error (.invalidValue (.text s) "a character")
  | _, j => mismatch "a character" j

/-- An integer from `low` to `high`. -/
def integer (low high : Int) (expected : String) : Decoder Int
  | _, .num (.int i) =>
    if low ≤ i ∧ i ≤ high then .ok i else .error (.invalidValue (.integer i) expected)
  | _, j => mismatch expected j

/-- A signed 64-bit integer. -/
def int64 : Decoder Int64 := fun room j =>
  Int64.ofInt <$> integer Int64.minValue.toInt Int64.maxValue.toInt "i64" room j

/-- An unsigned 32-bit integer. -/
def uint32 : Decoder UInt32 := fun room j =>
  (fun i => UInt32.ofNat i.toNat) <$> integer 0 (UInt32.size - 1) "u32" room j

/-- An unsigned 64-bit integer. -/
def uint64 : Decoder UInt64 := fun room j =>
  (fun i => UInt64.ofNat i.toNat) <$> integer 0 (UInt64.size - 1) "usize" room j

/-- The double nearest to an integer of at most 64 bits. -/
def floatOfInt (i : Int) : Float :=
  if 0 ≤ i then (UInt64.ofNat i.toNat).toFloat else -(UInt64.ofNat (-i).toNat).toFloat

/-- A double; an integer stands for the nearest one. -/
def float : Decoder Float
  | _, .num (.float x) => .ok x
  | _, .num (.int i) => .ok (floatOfInt i)
  | _, j => mismatch "f64" j

/-- Null, or what `d` decodes. -/
def optional (d : Decoder α) : Decoder (Option α)
  | _, .null => .ok none
  | room, j => some <$> d room j

/-! ## Sequences -/

/-- Enters a container. -/
def enter (room : Nat) : Except DecodeError Nat :=
  match room with
  | 0 => faulty .malformed
  | room + 1 => .ok room

/-- The end of a container all of whose elements were wanted. -/
def ended : Json.Ending → Except DecodeError Unit
  | .closed => .ok ()
  | .cut f _ => faulty f

/-- The end of a container of which no more was wanted: one more comma is a fault. -/
def exhausted : Json.Ending → Except DecodeError Unit
  | .closed => .ok ()
  | .cut _ true => faulty .malformed
  | .cut f false => faulty f

/-- The items of a list, in order. -/
def items (d : Decoder α) (room : Nat) : List Json → Except DecodeError (List α)
  | [] => .ok []
  | j :: rest => do
    let a ← d room j
    let as ← items d room rest
    return a :: as

/-- A sequence of any length. The first item or the end that does not fit is reported. -/
def list (d : Decoder α) : Decoder (List α)
  | room, .arr js ending => do
    let room ← enter room
    let as ← items d room js
    ended ending
    return as
  | _, j => mismatch "a sequence" j

/-- The items of a sequence that are still to be decoded. -/
structure Cursor where
  /-- The room inside the sequence. -/
  room : Nat
  /-- What the whole sequence was expected to be. -/
  expected : String
  /-- How many elements were decoded. -/
  index : Nat
  /-- The items that are left. -/
  rest : List Json
  /-- How the sequence ends. -/
  ending : Json.Ending

/-- Decodes elements one after the other. -/
abbrev Elements (α : Type) := StateT Cursor (Except DecodeError) α

/-- The next element, or `default?` if there is none left. -/
def elementOr (default? : Option α) (d : Decoder α) : Elements α := fun c =>
  match c.rest with
  | j :: rest => do
    let a ← d c.room j
    return (a, { c with index := c.index + 1, rest := rest })
  | [] => do
    -- a fault at the end comes before the missing element
    ended c.ending
    match default? with
    | some a => return (a, { c with index := c.index + 1 })
    | none => throw (.invalidLength c.index c.expected)

/-- The next element. -/
def element (d : Decoder α) : Elements α := elementOr none d

/-- A sequence of elements and nothing more. Its kind and its length are described apart. -/
def tuple (kind length : String) (es : Elements α) : Decoder α
  | room, .arr js ending => do
    let room ← enter room
    let (a, c) ← es ⟨room, length, 0, js, ending⟩
    match c.rest with
    | [] => exhausted c.ending
    | _ :: _ => faulty .malformed
    return a
  | _, j => mismatch kind j

/-- A pair of elements. -/
def pair (d : Decoder α) (e : Decoder β) : Decoder (α × β) :=
  tuple "a tuple of size 2" "a tuple of size 2" do
    let a ← element d
    let b ← element e
    return (a, b)

/-! ## Records -/

/-- A field of a record that is gathered in a state `σ`. -/
structure Field (σ : Type) where
  /-- The name of the field. -/
  name : String
  /-- Whether the field was met already. -/
  isSet : σ → Bool
  /-- Decodes the field and stores it. -/
  store : Nat → Json → σ → Except DecodeError σ

/-- A field that `put` stores and `get` looks up. -/
def field (name : String) (get : σ → Option α) (put : σ → α → σ) (d : Decoder α) : Field σ where
  name := name
  isSet s := (get s).isSome
  store room j s := do
    let a ← d room j
    return put s a

/-- The name of a member of an object; only a text can be one. -/
def memberName : Json → Except DecodeError String
  | .str s => .ok s
  | .unreadable .quote f _ => faulty f
  | _ => faulty .malformed

/-- Gathers the members of an object; those that no field names are passed over. -/
def members (fields : List (Field σ)) (room : Nat) : List (Json × Json) → σ → Except DecodeError σ
  | [], s => .ok s
  | (key, j) :: rest, s => do
    let name ← memberName key
    match fields.find? (fun f => f.name = name) with
    | some f =>
      if f.isSet s then throw (.duplicateField name)
      else members fields room rest (← f.store room j s)
    | none =>
      match j.skip with
      | .ok () => members fields room rest s
      | .error f => faulty f

/-- The value of a field that must be there. -/
def require (name : String) : Option α → Except DecodeError α
  | some a => .ok a
  | none => .error (.missingField name)

/-- A record called `name`: an object with fields in any order, or a sequence of them. -/
def record (name : String) (count : Nat) (start : σ) (fields : List (Field σ))
    (build : σ → Except DecodeError α) (es : Elements α) : Decoder α
  | room, .obj ms ending => do
    let room ← enter room
    let s ← members fields room ms start
    ended ending
    build s
  | room, j =>
    let kind := "struct " ++ name
    tuple kind (kind ++ " with " ++ Decimal.digitsText count ++ " elements") es room j

/-! ## Alternatives -/

/-- What follows the name of an alternative. -/
inductive Payload (α : Type) where
  /-- Nothing. -/
  | unit (value : α)
  /-- One value. -/
  | value (d : Decoder α)
  /-- A sequence of so many elements. -/
  | elements (count : Nat) (es : Elements α)

/-- An alternative, with its name. -/
abbrev Alternative (α : Type) := String × Payload α

/-- The alternative of a given name. -/
def select (cases : List (Alternative α)) (name : String) : Except DecodeError (Payload α) :=
  match cases.find? (fun c => c.1 = name) with
  | some c => .ok c.2
  | none => .error (.unknownVariant name (cases.map Prod.fst))

/-- Decodes what follows the name of an alternative. -/
def payload (type name : String) : Payload α → Decoder α
  | .unit a, _, .null => .ok a
  | .unit _, _, j => mismatch "unit" j
  | .value d, room, j => d room j
  | .elements count es, room, j =>
    let kind := "tuple variant " ++ type ++ "::" ++ name
    tuple kind (kind ++ " with " ++ Decimal.digitsText count ++ " elements") es room j

/-- One of several alternatives of the type called `type`: a name alone, or an object whose only
member has that name. -/
def choice (type : String) (cases : List (Alternative α)) : Decoder α
  | _, .str name => do
    match ← select cases name with
    | .unit a => return a
    | .value _ => throw (.invalidType .bareName "newtype variant")
    | .elements .. => throw (.invalidType .bareName "tuple variant")
  | room, .obj ms ending => do
    let room ← enter room
    match ms with
    | [] =>
      match ending with
      | .closed => faulty .malformed
      | .cut f _ => faulty f
    | (key, j) :: rest =>
      let name ← memberName key
      let a ← payload type name (← select cases name) room j
      -- the object has no second member
      match rest with
      | [] => exhausted ending
      | _ :: _ => faulty .malformed
      return a
  | _, .unreadable .other _ _ => faulty .malformed
  | _, .unreadable _ f _ => faulty f
  | _, _ => faulty .malformed

/-! ## Whole texts and values -/

/-- How many containers may be open at once in a text. -/
def textRoom : Nat := 127

/-- Decodes a text; after the value only blanks may follow. -/
def ofText (d : Decoder α) (source : String) : Except DecodeError α := do
  let doc := Json.read source
  let a ← d textRoom doc.value
  if doc.clean then return a else faulty .malformed

/-- Decodes a value, with all the room that it needs. -/
def ofJson (d : Decoder α) (j : Json) : Except DecodeError α := d j.depth j

end Decoder

end TailLoop
