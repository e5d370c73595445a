import TailLoop.Text.Columns

/-!
# Ligatures

Letters of some scripts join with the letter before them into one shape, which takes fewer columns
than the two letters apart. Texts are measured from their end, so a ligature is entered through its
last letter, and `Ligature` tells how much of it was met.
-/

namespace TailLoop.Text

/-! ## Letters -/

/-- Arabic letters of the joining group alef. -/
def arabicAlefs : CharSet where
  flips := [
    0x622, 0x624, 0x625, 0x626, 0x627, 0x628, 0x671, 0x674, 0x675, 0x676, 0x773, 0x775, 0x870,
    0x883]

/-- Arabic letters of the joining group lam. -/
def arabicLams : CharSet where
  flips := [0x644, 0x645, 0x6b5, 0x6b9, 0x76a, 0x76b, 0x8a6, 0x8a7, 0x8c7, 0x8c8]

/-- Khmer letters that can be written below the letter before them. -/
def khmerLetters : CharSet where
  flips := [
    0x1780, 0x1783, 0x1784, 0x1788, 0x1789, 0x178d, 0x178e, 0x1794, 0x1795, 0x1799, 0x179b, 0x179e,
    0x17a0, 0x17a1, 0x17a2, 0x17a3, 0x17a7, 0x17a8, 0x17ab, 0x17ad, 0x17af, 0x17b0]

/-- Tifinagh consonants. -/
def tifinaghConsonants : CharSet where
  flips := [0x2d31, 0x2d66, 0x2d6f, 0x2d70]

/-- Lisu tones that can stand first in a pair of tones. -/
def lisuFirstTones : CharSet where
  flips := [0xa4f8, 0xa4fc]

/-- Lisu tones that can stand second in a pair of tones. -/
def lisuSecondTones : CharSet where
  flips := [0xa4fc, 0xa4fe]

/-- Marks inside a ligature that leave it as it is. -/
def ligatureMarks : CharSet where
  flips := [
    0x34f, 0x350, 0x17b4, 0x17b6, 0x180b, 0x180e, 0x180f, 0x1810, 0xfe00, 0xfe10, 0xe0100, 0xe01f0]

/-- Whether `c` is the joiner of no width. -/
def isJoiner (c : Char) : Bool := c.toNat == 0x200d

/-! ## The end of a ligature -/

/-- The part of a ligature that was met, from its end. Some letters join only if a joiner stands
before them, and `joined` tells whether one does. -/
inductive Ligature where
  | arabicAlef
  | hebrewLamed (joined : Bool)
  | khmerLetter
  | bugineseYa (joined : Bool)
  | bugineseIYa
  | tifinagh (joined : Bool)
  | tifinaghJoiner
  | lisuTone
  | orkhonI (joined : Bool)
  deriving DecidableEq

namespace Ligature

/-- The ligature that a letter may end. -/
def ofChar (c : Char) : Option Ligature :=
  if arabicAlefs.contains c then some .arabicAlef
  else if c.toNat = 0x5dc then some (.hebrewLamed false)
  else if khmerLetters.contains c then some .khmerLetter
  else if c.toNat = 0x1a10 then some (.bugineseYa false)
  else if tifinaghConsonants.contains c then some (.tifinagh false)
  else if lisuSecondTones.contains c then some .lisuTone
  else if c.toNat = 0x10c03 then some (.orkhonI false)
  else none

/-- A joiner before the part that was met. -/
def join : Ligature → Ligature
  | .hebrewLamed _ => .hebrewLamed true
  | .bugineseYa _ => .bugineseYa true
  | .tifinagh _ => .tifinagh true
  | .orkhonI _ => .orkhonI true
  | l => l

/-- What a character does before the end of a ligature. -/
inductive Effect where
  /-- It is of no concern to the ligature. -/
  | apart
  /-- It completes the ligature and changes the columns by so many. -/
  | complete (change : Int)
  /-- It changes the columns by so many and leads to another part. -/
  | extend (change : Int) (part : Ligature)

/-- What a letter does before the end of a ligature, marks and joiners apart. -/
def letter (c : Char) : Ligature → Effect
  | .arabicAlef =>
    if arabicLams.contains c then .complete 0
    else if zeroWidth.contains c && !parting.contains c then .extend 0 .arabicAlef
    else .apart
  | .hebrewLamed true => if c.toNat = 0x5d0 then .complete 0 else .apart
  -- a letter below another one takes no column, and neither does the sign that puts it there
  | .khmerLetter => if c.toNat = 0x17d2 then .complete (-1) else .apart
  | .bugineseYa true => if c.toNat = 0x1a17 then .extend 0 .bugineseIYa else .apart
  | .bugineseIYa => if c.toNat = 0x1a15 then .complete 0 else .apart
  | .tifinagh joined =>
    if c.toNat = 0x2d7f then .extend 1 .tifinaghJoiner
    else if joined && tifinaghConsonants.contains c then .complete 0
    else .apart
  -- the column of the joiner is given back once both consonants are there
  | .tifinaghJoiner => if tifinaghConsonants.contains c then .complete (-1) else .apart
  | .lisuTone => if lisuFirstTones.contains c then .complete 0 else .apart
  | .orkhonI true => if c.toNat = 0x10c32 then .complete 0 else .apart
  | .hebrewLamed false | .bugineseYa false | .orkhonI false => .apart

/-- What a character does before the end of a ligature. -/
def before (c : Char) (l : Ligature) : Effect :=
  -- an alef has rules of its own for marks
  if l = .arabicAlef then l.letter c
  else if isJoiner c then .extend 0 l.join
  else if ligatureMarks.contains c then .extend 0 l
  else l.letter c

end Ligature

end TailLoop.Text
