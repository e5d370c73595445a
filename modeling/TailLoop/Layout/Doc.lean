/-!
# Layout documents

A `Doc` describes a text together with the places where lines may break. Empty parts leave no trace:
the constructors below drop them, so that they never count as a part of their own.
-/

namespace TailLoop.Layout

/-- A colour of a terminal. -/
inductive Color where
  | red
  | green
  | blue
  | magenta
  | cyan
  deriving DecidableEq

/-- How a piece of text is highlighted. -/
structure Style where
  /-- Its colour. -/
  color : Color
  /-- Whether it is bold. -/
  bold : Bool := false
  deriving DecidableEq

/-- A text with possible line breaks. -/
inductive Doc where
  | nil
  | text (s : String)
  /-- A highlighted text. -/
  | styled (style : Style) (s : String)
  /-- A line break. -/
  | hardline
  | append (left right : Doc)
  /-- Indents the line breaks inside by `n` more columns. -/
  | nest (n : Nat) (d : Doc)
  /-- Indents the line breaks inside to the column where the document starts. -/
  | align (d : Doc)
  /-- Is laid out on one line if it fits. -/
  | group (d : Doc)
  /-- The first document in a broken group, the second on one line. -/
  | flatAlt (broken flat : Doc)

namespace Doc

/-- A plain text. -/
def str (s : String) : Doc := if s = "" then nil else text s

/-- Two documents after each other. -/
def cat : Doc → Doc → Doc
  | nil, d => d
  | d, nil => d
  | d, e => append d e

instance : Append Doc := ⟨cat⟩

/-- The documents of a list after each other. -/
def concat (ds : List Doc) : Doc := ds.foldr (· ++ ·) nil

/-- The documents of a list with a separator between any two. -/
def intersperse (separator : Doc) : List Doc → Doc
  | [] => nil
  | [d] => d
  | d :: ds => d ++ (separator ++ intersperse separator ds)

/-- Indents the line breaks inside by `n` more columns. -/
def indent (n : Nat) : Doc → Doc
  | nil => nil
  | d => nest n d

/-- A line break, or a space on one line. -/
def line : Doc := flatAlt hardline (text " ")

/-- A space. -/
def space : Doc := text " "

/-- A document between two texts. -/
def enclose (before after : String) (d : Doc) : Doc := text before ++ (d ++ text after)

/-- A document in parentheses. -/
def parens (d : Doc) : Doc := enclose "(" ")" d

/-- A document in square brackets. -/
def brackets (d : Doc) : Doc := enclose "[" "]" d

/-- A document in braces. -/
def braces (d : Doc) : Doc := enclose "\x7b" "\x7d" d

end Doc

end TailLoop.Layout
