import TailLoop.Layout.Doc
import TailLoop.Text.Width

/-!
# Laying out documents

Documents are laid out for a given line width. A group goes on one line if its text, and whatever
follows up to the next possible break, stays within the width. A line break takes effect when the
next part is written: that part decides the indentation.
-/

namespace TailLoop.Layout

/-- How the optional breaks of a group are laid out. -/
inductive Mode where
  | flat
  | broken
  deriving DecidableEq

/-! ## Fitting on a line -/

/-- How far a document reaches when it is laid out from some column. -/
inductive Reach where
  /-- It does not fit. -/
  | tooFar
  /-- It fits, and a line ends in it. -/
  | lineEnd
  /-- It fits and ends in this column. -/
  | column (n : Nat)

/-- How far a text reaches. -/
def Reach.ofText (width column : Nat) (s : String) : Reach :=
  let last := column + Text.width s
  if width < last then .tooFar else .column last

/-- How far a document reaches, if all its groups are laid out in the given mode. -/
def Doc.reach (width : Nat) (mode : Mode) : Doc → Nat → Reach
  | .nil, col => .column col
  | .text s, col => .ofText width col s
  -- an empty text does not make a line too long
  | .styled _ s, col => if s = "" then .column col else .ofText width col s
  | .hardline, _ =>
    match mode with
    | .flat => .tooFar
    | .broken => .lineEnd
  | .append l r, col =>
    match l.reach width mode col with
    | .column col => r.reach width mode col
    | result => result
  | .nest _ d, col => d.reach width mode col
  | .align d, col => d.reach width mode col
  | .group d, col => d.reach width mode col
  | .flatAlt broken flat, col =>
    match mode with
    | .flat => flat.reach width mode col
    | .broken => broken.reach width mode col

/-- Whether the documents that follow fit from a column, up to the next possible break. -/
def followersFit (width : Nat) : List Doc → Nat → Bool
  | [], _ => true
  | d :: rest, col =>
    match d.reach width .broken col with
    | .tooFar => false
    | .lineEnd => true
    | .column col => followersFit width rest col

/-- Whether a document fits on one line from a column, with the documents that follow. -/
def fits (width : Nat) (d : Doc) (rest : List Doc) (col : Nat) : Bool :=
  match d.reach width .flat col with
  | .tooFar => false
  | .lineEnd => true
  | .column col => followersFit width rest col

/-! ## Laying out -/

/-- A piece of the result, with its highlighting. -/
structure Chunk where
  /-- The highlighting, if there is any. -/
  style : Option Style
  /-- The text. -/
  text : String

/-- A layout in the making. -/
structure Page where
  /-- The column where the next text goes. -/
  column : Nat := 0
  /-- The indentation of a line break that has not taken effect yet. -/
  pending : Option Nat := none
  /-- The pieces written so far, last first. -/
  chunks : List Chunk := []

namespace Page

/-- Starts a new line. -/
def newline (p : Page) (indent : Nat) : Page :=
  ⟨indent, none, ⟨none, "\n" ++ String.ofList (List.replicate indent ' ')⟩ :: p.chunks⟩

/-- Lets a waiting line break take effect, for a part with the given indentation. -/
def settle (p : Page) (indent : Nat) : Page :=
  match p.pending with
  | some _ => p.newline indent
  | none => p

/-- Writes a piece of text. -/
def write (p : Page) (style : Option Style) (s : String) : Page :=
  { p with column := p.column + Text.width s, chunks := ⟨style, s⟩ :: p.chunks }

/-- All pieces in order, after a last line break has taken effect. -/
def finish (p : Page) : List Chunk :=
  match p.pending with
  | some indent => (p.newline indent).chunks.reverse
  | none => p.chunks.reverse

end Page

/-- Lays out a document that `rest` follows. -/
def Doc.layOut (width : Nat) : Doc → Nat → Mode → List Doc → Page → Page
  | .nil, ind, _, _, p => p.settle ind
  | .text s, ind, _, _, p => (p.settle ind).write none s
  | .styled style s, ind, _, _, p => (p.settle ind).write (some style) s
  -- a break that is still waiting takes effect, and this one waits in its place
  | .hardline, ind, _, _, p => { p.settle ind with pending := some ind }
  | .append l r, ind, mode, rest, p =>
    r.layOut width ind mode rest (l.layOut width ind mode (r :: rest) p)
  | .nest n d, ind, mode, rest, p => d.layOut width (ind + n) mode rest (p.settle ind)
  | .align d, ind, mode, rest, p =>
    let p := p.settle ind
    d.layOut width p.column mode rest p
  | .group d, ind, mode, rest, p =>
    let p := p.settle ind
    match mode with
    | .flat => d.layOut width ind .flat rest p
    | .broken => d.layOut width ind (if fits width d rest p.column then .flat else .broken) rest p
  | .flatAlt broken flat, ind, mode, rest, p =>
    match mode with
    | .flat => flat.layOut width ind mode rest (p.settle ind)
    | .broken => broken.layOut width ind mode rest (p.settle ind)

/-- The pieces of a document laid out for a line width. -/
def Doc.chunks (d : Doc) (width : Nat) : List Chunk := (d.layOut width 0 .broken [] {}).finish

/-! ## Texts -/

/-- The text of pieces without highlighting. -/
def plain (chunks : List Chunk) : String := String.join (chunks.map Chunk.text)

/-- The control sequence with the given parameter. -/
def control (parameter : String) : String := "\x1b[" ++ parameter ++ "m"

/-- The control sequence that ends all highlighting. -/
def reset : String := control "0"

/-- The parameter that selects a colour. -/
def Color.parameter : Color → String
  | .red => "31"
  | .green => "32"
  | .blue => "34"
  | .magenta => "35"
  | .cyan => "36"

/-- The control sequences that start a highlighting. -/
def Style.sequence (s : Style) : String :=
  reset ++ (if s.bold then control "1" else "") ++ control s.color.parameter

/-- A piece between its control sequences. -/
def Chunk.colored (c : Chunk) : String :=
  match c.style with
  | some style => style.sequence ++ c.text ++ reset
  | none => c.text

/-- The text of pieces with highlighting for a terminal. -/
def colored (chunks : List Chunk) : String := String.join (chunks.map Chunk.colored)

/-- The text of a document for a line width, with or without highlighting. -/
def Doc.render (d : Doc) (width : Nat) (color : Bool) : String :=
  if color then colored (d.chunks width) else plain (d.chunks width)

end TailLoop.Layout
