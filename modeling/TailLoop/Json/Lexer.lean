import TailLoop.Json.Basic

/-!
# Tokens of a JSON text

A text is cut into brackets, commas, colons and leaves. A leaf is a `Json` value without parts; a
leaf that cannot be read to its end closes the list of tokens.
-/

namespace TailLoop.Json

/-- A token of a JSON text. -/
inductive Token where
  | openArray
  | closeArray
  | openObject
  | closeObject
  | comma
  | colon
  | leaf (value : Json)

/-! ## Quoted texts -/

/-- The state of reading a quoted text. -/
structure TextScan where
  /-- The characters read so far, last first. -/
  out : List Char
  /-- The first half of a surrogate pair whose second half must follow. -/
  high : Option Nat
  /-- The fault that stops whoever reads the text, if one was met. -/
  fault : Option Fault

namespace TextScan

/-- The state after the opening quote. -/
def start : TextScan := ⟨[], none, none⟩

/-- Meets a fault that only a reader of the text notices; the first one counts. -/
def spoil (s : TextScan) : TextScan :=
  { s with high := none, fault := some (s.fault.getD .malformed) }

/-- Closes the place where the second half of a pair could stand. -/
def settle (s : TextScan) : TextScan := if s.high.isSome then s.spoil else s

/-- Takes one character. -/
def push (s : TextScan) (c : Char) : TextScan :=
  let s := s.settle
  { s with out := c :: s.out }

/-- Takes a 16-bit unit given by its number. -/
def unit (s : TextScan) (n : Nat) : TextScan :=
  let low := 0xDC00 ≤ n ∧ n < 0xE000
  match s.high with
  | some h =>
    if low then
      let c := Char.ofNat (0x10000 + (h - 0xD800) * 0x400 + (n - 0xDC00))
      { s with high := none, out := c :: s.out }
    else s.spoil
  | none =>
    if low then s.spoil
    else if 0xD800 ≤ n ∧ n < 0xDC00 then { s with high := some n }
    else s.push (Char.ofNat n)

/-- The text, once the closing quote is reached. -/
def finish (s : TextScan) : Json :=
  match s.settle.fault with
  | none => .str (String.ofList s.out.reverse)
  | some f => .unreadable .quote f none

/-- The leaf of a text that breaks off. -/
def stop (s : TextScan) (f : Fault) : Json := .unreadable .quote (s.fault.getD f) (some f)

end TextScan

/-- The value of a hexadecimal digit. -/
def hexDigit? (c : Char) : Option Nat :=
  if '0' ≤ c ∧ c ≤ '9' then some (c.toNat - '0'.toNat)
  else if 'a' ≤ c ∧ c ≤ 'f' then some (c.toNat - 'a'.toNat + 10)
  else if 'A' ≤ c ∧ c ≤ 'F' then some (c.toNat - 'A'.toNat + 10)
  else none

/-- The unit written by the next four hexadecimal digits. Fewer than four bytes left count as the
end of the text, whatever they are. -/
def hexUnit (cs : List Char) : Except Fault Nat :=
  if (String.ofList (cs.take 4)).utf8ByteSize < 4 then .error .endOfText
  else match (cs.take 4).mapM hexDigit? with
    | some ds =>
      if ds.length = 4 then .ok (ds.foldl (fun n d => n * 16 + d) 0) else .error .malformed
    | none => .error .malformed

/-- The character that a backslash and `c` stand for. -/
def simpleEscape? (c : Char) : Option Char :=
  match c with
  | '"' => some '"'
  | '\\' => some '\\'
  | '/' => some '/'
  | 'b' => some '\x08'
  | 'f' => some '\x0c'
  | 'n' => some '\n'
  | 'r' => some '\r'
  | 't' => some '\t'
  | _ => none

/-- Reads a quoted text from after its opening quote, first passing over `skip` characters. -/
def lexText (skip : Nat) (s : TextScan) : List Char → Json × List Char
  | [] => (s.stop .endOfText, [])
  | c :: rest =>
    match skip with
    | n + 1 => lexText n s rest
    | 0 =>
      if c = '"' then (s.finish, rest)
      else if c = '\\' then
        match rest with
        | [] => (s.stop .endOfText, [])
        | 'u' :: more =>
          match hexUnit more with
          -- the letter and the four digits are still in front
          | .ok n => lexText 5 (s.unit n) rest
          | .error f => (s.stop f, [])
        | e :: _ =>
          match simpleEscape? e with
          | some x => lexText 1 (s.push x) rest
          | none => (s.settle.stop .malformed, [])
      else if c.toNat < 0x20 then (s.settle.stop .malformed, [])
      else lexText 0 (s.push c) rest

/-! ## Numbers -/

/-- The decimal digits at the front of a text. -/
def lexDigits (cs : List Char) : List Nat × List Char :=
  let (ds, rest) := cs.span Char.isDigit
  (ds.map fun c => c.toNat - '0'.toNat, rest)

/-- The leaf of a number that breaks off before `rest`. Passing over it, one does not notice that
the text ends there. -/
def brokenNumber (rest : List Char) : Json × List Char :=
  (.unreadable .other (if rest.isEmpty then .endOfText else .malformed) (some .malformed), [])

/-- Reads the digits after a point, if there is one. -/
def lexFraction (cs : List Char) : Except (List Char) (Option (List Nat) × List Char) :=
  match cs with
  | '.' :: rest =>
    let (ds, rest) := lexDigits rest
    if ds.isEmpty then .error rest else .ok (some ds, rest)
  | _ => .ok (none, cs)

/-- Reads an exponent, if there is one. -/
def lexExponent (cs : List Char) : Except (List Char) (Option (Bool × List Nat) × List Char) :=
  let digits (below : Bool) (cs : List Char) :=
    let (ds, rest) := lexDigits cs
    if ds.isEmpty then .error rest else .ok (some (below, ds), rest)
  match cs with
  | e :: rest =>
    if e = 'e' ∨ e = 'E' then
      match rest with
      | '-' :: rest => digits true rest
      | '+' :: rest => digits false rest
      | rest => digits false rest
    else .ok (none, cs)
  | [] => .ok (none, cs)

/-- Reads a number. -/
def lexNumber (cs : List Char) : Json × List Char :=
  let (negative, cs) := match cs with
    | '-' :: rest => (true, rest)
    | _ => (false, cs)
  let (whole, rest) := lexDigits cs
  match whole with
  | [] => brokenNumber rest
  -- no digit may follow a leading zero
  | 0 :: _ :: _ => (fault .other .malformed, [])
  | _ =>
    match lexFraction rest with
    | .error rest => brokenNumber rest
    | .ok (fraction, rest) =>
      match lexExponent rest with
      | .error rest => brokenNumber rest
      | .ok (exponent, rest) =>
        match Decimal.NumberText.value? ⟨negative, whole, fraction, exponent⟩ with
        | some n => (.num n, rest)
        -- too large for a double, which only a reader of the number notices
        | none => (.unreadable .other .malformed none, rest)

/-! ## All tokens -/

/-- Reads the letters of a fixed word. -/
def lexWord (value : Json) : List Char → List Char → Json × List Char
  | [], cs => (value, cs)
  | _ :: _, [] => (fault .other .endOfText, [])
  | w :: ws, c :: cs => if w = c then lexWord value ws cs else (fault .other .malformed, [])

/-- Whether `c` separates tokens and means nothing else. -/
def isBlank (c : Char) : Bool := c = ' ' || c = '\n' || c = '\t' || c = '\r'

/-- The token that starts with `c` and goes on in `rest`. -/
def lexToken (c : Char) (rest : List Char) : Token × List Char :=
  let leaf (r : Json × List Char) := (Token.leaf r.1, r.2)
  match c with
  | '[' => (.openArray, rest)
  | ']' => (.closeArray, rest)
  | '\x7b' => (.openObject, rest)
  | '\x7d' => (.closeObject, rest)
  | ',' => (.comma, rest)
  | ':' => (.colon, rest)
  | '"' => leaf (lexText 0 .start rest)
  | 'n' => leaf (lexWord .null "ull".toList rest)
  | 't' => leaf (lexWord (.bool true) "rue".toList rest)
  | 'f' => leaf (lexWord (.bool false) "alse".toList rest)
  | _ =>
    if c = '-' || c.isDigit then leaf (lexNumber (c :: rest))
    else leaf (fault .other .malformed, [])

/-- The tokens of a text, appended to `done` (last first); each takes at least one character, so
`steps` is never used up when it is the length of the text. -/
def lexAll (done : List Token) : Nat → List Char → List Token
  | 0, _ => done.reverse
  | _, [] => done.reverse
  | steps + 1, c :: rest =>
    if isBlank c then lexAll done steps rest
    else
      let (t, rest) := lexToken c rest
      lexAll (t :: done) steps rest

/-- The tokens of a text. -/
def tokens (text : String) : List Token :=
  let cs := text.toList
  lexAll [] cs.length cs

end TailLoop.Json
