import Mathlib
import TailLoop.Layout.Render

/-!
# Texts of documents without optional breaks

A document without groups is laid out in one way only, up to the indentation of its lines. The
indentation of a line is decided when the next part is written, so a page with a waiting line break
stands for several texts.

* `Doc.Shows`: the texts of a document, whatever the indentation.
* `Doc.shows_render`: the text of a laid out document is one of them.
-/

namespace TailLoop.Layout

/-- A line break with the indentation `indent`. -/
def lineBreak (indent : Nat) : List Char := '\n' :: List.replicate indent ' '

namespace Doc

/-- Whether a document has no optional breaks (`group`, `flatAlt`) and no `align`. -/
def isPlain : Doc → Bool
  | nil | text _ | styled .. | hardline => true
  | append l r => l.isPlain && r.isPlain
  | nest _ d => d.isPlain
  | align _ | group _ | flatAlt .. => false

/-- A plain document shows a text: its pieces in order, with any indentation after line breaks. -/
inductive Shows : Doc → List Char → Prop
  | nil : Shows .nil []
  | text {s : String} : Shows (.text s) s.toList
  | styled {style : Style} {s : String} : Shows (.styled style s) s.toList
  | hardline {indent : Nat} : Shows .hardline (lineBreak indent)
  | append {l r : Doc} {cs ds : List Char} : Shows l cs → Shows r ds →
      Shows (.append l r) (cs ++ ds)
  | nest {n : Nat} {d : Doc} {cs : List Char} : Shows d cs → Shows (.nest n d) cs

/-- `nil` is neutral at the end of `d`. -/
theorem cat_nil (d : Doc) : d ++ nil = d := by cases d <;> rfl

/-- The first character of the texts that a plain document shows. -/
def firstChar : Doc → Option Char
  | text s | styled _ s => s.toList.head?
  | hardline => some '\n'
  | append l r => l.firstChar.or r.firstChar
  | nest _ d => d.firstChar
  | nil | align _ | group _ | flatAlt .. => none

/-- All texts that `d` shows start with `d.firstChar`. -/
theorem Shows.head? {d : Doc} {cs : List Char} (h : d.Shows cs) : cs.head? = d.firstChar := by
  induction h with
  | nil | text | styled | hardline => rfl
  | append _ _ ihl ihr => rw [List.head?_append, ihl, ihr, firstChar]
  | nest _ ih => exact ih

/-- `d ++ e` starts like `d`, or like `e` if `d` shows nothing. -/
@[simp] theorem firstChar_cat (d e : Doc) : (d ++ e).firstChar = d.firstChar.or e.firstChar := by
  show (cat d e).firstChar = _
  unfold cat
  split <;> simp [firstChar]

/-- `d ++ e` is plain if `d` and `e` are. -/
@[simp] theorem isPlain_cat (d e : Doc) : (d ++ e).isPlain = (d.isPlain && e.isPlain) := by
  show (cat d e).isPlain = _
  unfold cat
  split <;> simp [isPlain]

/-- `d ++ e` shows a text of `d` and then one of `e`. -/
theorem shows_cat {d e : Doc} {cs : List Char} (h : (d ++ e).Shows cs) :
    ∃ as bs, cs = as ++ bs ∧ d.Shows as ∧ e.Shows bs := by
  change (cat d e).Shows cs at h
  unfold cat at h
  split at h
  · exact ⟨[], cs, rfl, .nil, h⟩
  · exact ⟨cs, [], (List.append_nil cs).symm, h, .nil⟩
  · cases h with
    | append hd he => exact ⟨_, _, rfl, hd, he⟩

/-- `indent n d` shows the texts of `d`. -/
theorem shows_indent {n : Nat} {d : Doc} {cs : List Char} (h : (indent n d).Shows cs) :
    d.Shows cs := by
  unfold indent at h
  split at h
  · exact h
  · cases h with
    | nest h => exact h

/-- `indent n d` is plain if `d` is. -/
@[simp] theorem isPlain_indent (n : Nat) (d : Doc) : (indent n d).isPlain = d.isPlain := by
  unfold indent
  split <;> rfl

end Doc

/-! ## Pages -/

namespace Page

/-- The text that the page `p` holds. -/
def written (p : Page) : List Char := (plain p.chunks.reverse).toList

/-- `p` stands for the text `cs`: what is `written` on it and, if a line break waits, that break
with some indentation. -/
def Holds (p : Page) (cs : List Char) : Prop :=
  match p.pending with
  | some _ => ∃ indent, cs = p.written ++ lineBreak indent
  | none => cs = p.written

/-- The last piece of a page comes after what was `written` before. -/
theorem written_cons {p : Page} {column : Nat} {pending : Option Nat} {chunk : Chunk} :
    written ⟨column, pending, chunk :: p.chunks⟩ = p.written ++ chunk.text.toList := by
  simp [written, plain, String.toList_join]

/-- `newline` adds a `lineBreak`. -/
theorem written_newline (p : Page) (indent : Nat) :
    (p.newline indent).written = p.written ++ lineBreak indent := by
  rw [newline, written_cons]
  simp [lineBreak]

/-- `p` stands for the text of `p.settle indent`. -/
theorem holds_settle (p : Page) (indent : Nat) : p.Holds (p.settle indent).written := by
  unfold Holds settle
  cases p.pending with
  | some _ => exact ⟨indent, written_newline p indent⟩
  | none => rfl

/-- No line break waits in `p.settle indent`. -/
theorem pending_settle (p : Page) (indent : Nat) : (p.settle indent).pending = none := by
  unfold settle
  split
  · rfl
  · assumption

/-- What `p.settle indent` stands for, `p` stands for too. -/
theorem Holds.of_settle {p : Page} {indent : Nat} {cs : List Char}
    (h : (p.settle indent).Holds cs) : p.Holds cs := by
  unfold Holds at h
  rw [pending_settle] at h
  rw [h]
  exact holds_settle p indent

/-- `write` adds the text of `s` to a settled page. -/
theorem Holds.of_write {p : Page} {indent : Nat} {style : Option Style} {s : String}
    {cs : List Char} (h : ((p.settle indent).write style s).Holds cs) :
    cs = (p.settle indent).written ++ s.toList := by
  unfold Holds at h
  rw [write, pending_settle] at h
  rw [h, written_cons]

end Page

/-- After `layOut` of a plain `d`, the page stands for what it stood for before, and then a text
that `d` shows. -/
theorem Doc.holds_layOut {d : Doc} (hd : d.isPlain = true) {width ind : Nat} {mode : Mode}
    {rest : List Doc} {p : Page} {cs : List Char}
    (h : (d.layOut width ind mode rest p).Holds cs) :
    ∃ as bs, cs = as ++ bs ∧ p.Holds as ∧ d.Shows bs := by
  induction d generalizing ind rest p cs with
  | nil => exact ⟨cs, [], (List.append_nil cs).symm, h.of_settle, .nil⟩
  | text s => exact ⟨_, _, h.of_write, p.holds_settle ind, .text⟩
  | styled style s => exact ⟨_, _, h.of_write, p.holds_settle ind, .styled⟩
  | hardline =>
    -- the earlier break takes effect, and this one waits
    obtain ⟨indent, hcs⟩ : ∃ indent, cs = (p.settle ind).written ++ lineBreak indent := h
    exact ⟨_, _, hcs, p.holds_settle ind, .hardline⟩
  | append l r ihl ihr =>
    simp only [isPlain, Bool.and_eq_true] at hd
    obtain ⟨as, bs, rfl, has, hr⟩ := ihr hd.2 h
    obtain ⟨as, bs', rfl, has, hl⟩ := ihl hd.1 has
    exact ⟨as, bs' ++ bs, List.append_assoc .., has, .append hl hr⟩
  | nest n d ih =>
    obtain ⟨as, bs, rfl, has, hd⟩ := ih hd h
    exact ⟨as, bs, rfl, has.of_settle, .nest hd⟩
  | align | group | flatAlt => cases hd

/-- A plain `d` shows what `render` writes, whatever the `width`. -/
theorem Doc.shows_render {d : Doc} (hd : d.isPlain = true) (width : Nat) :
    d.Shows (d.render width false).toList := by
  let p := d.layOut width 0 .broken [] {}
  have hholds : p.Holds (d.render width false).toList := by
    show p.Holds (plain p.finish).toList
    unfold Page.Holds Page.finish
    cases p.pending with
    | some indent => exact ⟨indent, p.written_newline indent⟩
    | none => rfl
  obtain ⟨as, bs, heq, has, hbs⟩ := holds_layOut hd hholds
  -- the page is empty at the start
  obtain rfl : as = [] := has
  rw [heq]
  exact hbs

end TailLoop.Layout
