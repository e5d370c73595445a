import TailLoop.Text.Visible

/-!
# Quoted texts

Two ways to write a text between quotes. `quote` is the form of data and of scripts: only the
quote, the backslash and control characters are escaped. `showText` is the form of dumps and
messages: every character without a glyph of its own is written by its code point.
-/

namespace TailLoop.Text

/-- The lower-case hexadecimal digits of `n`, at least `places` of them. -/
def hex (n : Nat) (places : Nat) : String :=
  let digits := Nat.toDigits 16 n
  String.ofList (List.replicate (places - digits.length) '0' ++ digits)

/-- One character as it stands inside a quoted text. -/
def escape (c : Char) : String :=
  if c = '"' then "\\\""
  else if c = '\\' then "\\\\"
  else if c = '\x08' then "\\b"
  else if c = '\x0c' then "\\f"
  else if c = '\n' then "\\n"
  else if c = '\r' then "\\r"
  else if c = '\t' then "\\t"
  else if c.toNat < 0x20 then "\\u" ++ hex c.toNat 4
  else c.toString

/-- A text between quotes, as data and scripts write it. -/
def quote (s : String) : String :=
  "\"" ++ String.join (s.toList.map escape) ++ "\""

/-- One character as a dump shows it between marks of the kind `mark`. -/
def reveal (mark : Char) (c : Char) : String :=
  if c = '\x00' then "\\0"
  else if c = '\t' then "\\t"
  else if c = '\r' then "\\r"
  else if c = '\n' then "\\n"
  else if c = '\\' then "\\\\"
  else if c = mark then "\\" ++ c.toString
  else if isVisible c then c.toString
  else "\\u\x7b" ++ hex c.toNat 1 ++ "\x7d"

/-- A text as a dump shows it. -/
def showText (s : String) : String :=
  "\"" ++ String.join (s.toList.map (reveal '"')) ++ "\""

/-- A character as a dump shows it. -/
def showChar (c : Char) : String :=
  "\x27" ++ reveal '\x27' c ++ "\x27"

end TailLoop.Text
