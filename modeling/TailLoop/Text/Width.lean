import TailLoop.Text.Emoji
import TailLoop.Text.Ligature

/-!
# Display width

The number of columns that a text takes. Characters are not measured one by one: emoji may consist
of many characters, a variation selector changes the character before it, and letters join into
ligatures. A text is measured from its last character to its first, and a `View` keeps what a
character has to know of those after it.
-/

namespace TailLoop.Text

/-! ## What follows a character -/

/-- The kind of thing that the characters from some place on begin with. -/
inductive Tail where
  /-- Nothing that joins with what stands before it. -/
  | plain
  | lineFeed
  | skinTone
  /-- One letter of a flag. -/
  | flagLetter
  /-- Two letters of a flag or more. -/
  | flagLetters
  | picture
  /-- A joiner and a picture. -/
  | joined
  /-- A keycap before `joined`. -/
  | joinedKeycap
  /-- One letter of a flag before `joined`. -/
  | joinedFlagLetter
  /-- Two letters of a flag or more before `joined`. -/
  | joinedFlagLetters (even : Bool)
  /-- The end of a row of tags before `joined`: so many letters, after so many digits. -/
  | tags (letters digits : Nat)
  /-- The Kirat Rai vowel sign e. -/
  | kiratE
  /-- The Kirat Rai vowel sign ai. -/
  | kiratAi
  | ligature (part : Ligature)
  deriving DecidableEq

namespace Tail

/-- What a character begins on its own. -/
def ofChar (c : Char) : Tail :=
  if skinTones.contains c then .skinTone
  else if flagAlphabet.contains c then .flagLetter
  else if pictures.contains c then .picture
  else if c.toNat = 0x16d67 then .kiratE
  else if c.toNat = 0x16d68 then .kiratAi
  else
    match Ligature.ofChar c with
    | some l => .ligature l
    | none => .plain

/-- How a character and what follows it make one thing: the change of the columns, and the kind of
that thing. Nothing if the character stands by itself. -/
def merge (c : Char) : Tail → Option (Int × Tail)
  | .plain | .lineFeed => none
  | .skinTone =>
    if modifierBases.contains c then some (0, .picture)
    else if isJoiner c then some (0, .joined)
    else none
  | .flagLetter => if flagAlphabet.contains c then some (1, .flagLetters) else none
  | .flagLetters =>
    if flagAlphabet.contains c then some (1, .flagLetters)
    else if isJoiner c then some (0, .joined)
    else none
  | .picture => if isJoiner c then some (0, .joined) else none
  | .joined =>
    if c.toNat = 0x20e3 then some (0, .joinedKeycap)
    else if flagAlphabet.contains c then some (1, .joinedFlagLetter)
    else if skinTones.contains c then some (0, .skinTone)
    else if c.toNat = 0xe007f then some (0, .tags 0 0)
    else if pictures.contains c then some (0, .picture)
    else none
  | .joinedKeycap => none
  -- two letters make a flag, which is part of what follows; a third one stands by itself again
  | .joinedFlagLetter =>
    if flagAlphabet.contains c then some (-1, .joinedFlagLetters true) else none
  | .joinedFlagLetters even =>
    if flagAlphabet.contains c then
      some (if even then (3, .joinedFlagLetters false) else (-1, .joinedFlagLetters true))
    else if isJoiner c then some (0, .joined)
    else none
  | .tags letters digits =>
    if tagLetters.contains c && digits == 0 && decide (letters < 6) then
      some (0, .tags (letters + 1) 0)
    else if tagDigits.contains c &&
        (if digits = 0 then decide (letters ≤ 4) else decide (digits < 3)) then
      some (0, .tags letters (digits + 1))
    else if c.toNat = 0x1f3f4 && (if digits = 0 then decide (3 ≤ letters) else digits == 3) then
      some (0, .picture)
    else none
  -- vowel signs that Unicode also writes as two signs take one column in either form
  | .kiratE =>
    match c.toNat with
    | 0x16d63 => some (0, .plain)
    | 0x16d67 => some (0, .kiratAi)
    | 0x16d68 => some (1, .kiratE)
    | 0x16d69 => some (0, .plain)
    | _ => none
  | .kiratAi => if c.toNat = 0x16d63 then some (0, .plain) else none
  | .ligature l =>
    match l.before c with
    | .apart => none
    | .complete change => some (change, .plain)
    | .extend change part => some (change, .ligature part)

/-- What a variation selector leaves of the thing that follows it. -/
def behindSelector (s : Selector) : Tail → Tail
  | .ligature l => .ligature l
  | .joined => if s = .emoji then .joined else .plain
  | .joinedKeycap => if s = .emoji then .joinedKeycap else .plain
  | _ => .plain

/-- What is left of the thing that follows, once a selector found nothing to select. -/
def unselected : Tail → Tail
  | .ligature l => .ligature l
  | _ => .plain

end Tail

/-! ## Measuring -/

/-- What a character can see of the characters after it. -/
structure View where
  /-- The kind of thing that follows. -/
  tail : Tail
  /-- The variation selector between the character and that thing. -/
  selector : Option Selector

namespace View

/-- The view of the last character. -/
def start : View := ⟨.plain, none⟩

/-- The columns of a character, given the kind of thing that follows it, and the view of the
character before it. -/
def advance (c : Char) (t : Tail) : Int × View :=
  if c = '\n' then (1, ⟨.lineFeed, none⟩)
  -- a line end of two characters takes one column
  else if c = '\r' && t = .lineFeed then (0, ⟨.plain, none⟩)
  else if c.toNat ≤ 0xa0 then (1, ⟨.plain, none⟩)
  else
    match Selector.ofChar c with
    | some s => (0, ⟨t.behindSelector s, some s⟩)
    | none =>
      match t.merge c with
      | some (change, t) => (change, ⟨t, none⟩)
      | none => (columns c, ⟨.ofChar c, none⟩)

/-- The columns of a character in the form that a selector asks for, and the view of the character
before it. -/
def selected (t : Tail) : Selector → Int × View
  | .emoji => (if t = .joined ∨ t = .joinedKeycap then 0 else 2, ⟨.picture, none⟩)
  | .text => (1, .start)
  | .full => (2, .start)

/-- The columns of a character, and the view of the character before it. -/
def before (c : Char) (v : View) : Int × View :=
  match v.selector with
  | none => advance c v.tail
  | some s => if s.applies c then selected v.tail s else advance c v.tail.unselected

end View

/-- The number of columns of some characters, and the view of a character before them. -/
def measure : List Char → Int × View
  | [] => (0, .start)
  | c :: rest =>
    let (n, v) := measure rest
    let (change, v) := v.before c
    (n + change, v)

/-- The number of columns of a text. In a text of ASCII alone every character takes one, even the
two of a line end. -/
def width (s : String) : Nat :=
  if s.toList.all (fun c => decide (c.toNat < 0x80)) then s.length
  else (measure s.toList).1.toNat

end TailLoop.Text
