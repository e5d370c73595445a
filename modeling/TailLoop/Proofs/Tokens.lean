import TailLoop.Proofs.DocTexts
import TailLoop.Script.Printer

/-!
# Tokens of script texts

The lexical grammar of scripts: words, whole numbers, quoted texts and signs, with blanks between
them. A text is cut into tokens from left to right, and a token reaches as far as it can. Comments
are no part of it; the marks that open one are signs that no program contains.

Words are the identifiers of the language, not what the printer takes for identifiers: the letters
beyond ASCII are given by an instance of `Letters`, and all definitions and results are about any.

* `isName`: whether a text is an identifier of the language.
* `lex`: the tokens of a text.
* `Lexes`: the tokens of a document, whatever its indentation and whatever follows it.
-/

namespace TailLoop.Script

open Layout

/-! ## Identifiers -/

/-- The letters of the language beyond ASCII. They are those of the version of Unicode that the
language goes by: its characters `ID_Start`, and its characters `ID_Continue` with the two
joiners. -/
class Letters where
  /-- Whether a character beyond ASCII can start an identifier. -/
  isStart : Char → Bool
  /-- Whether a character beyond ASCII can go on with an identifier. -/
  isPart : Char → Bool

/-- The language whose identifiers have no letters but those of ASCII. -/
@[reducible] def Letters.ascii : Letters := ⟨fun _ => false, fun _ => false⟩

section Names

variable [Letters]

/-- Whether `c` can start an identifier of the language. -/
def isNameStart (c : Char) : Bool :=
  if c.toNat < 0x80 then c.isAlpha || c == '$' || c == '_' else Letters.isStart c

/-- Whether `c` can go on with an identifier of the language. -/
def isNamePart (c : Char) : Bool :=
  if c.toNat < 0x80 then c.isAlphanum || c == '$' || c == '_' else Letters.isPart c

/-- Whether `w` is an identifier of the language, reserved words included. -/
def isName (w : String) : Bool :=
  match w.toList with
  | [] => false
  | c :: rest => isNameStart c && rest.all isNamePart

omit [Letters] in
/-- `Char.isDigit` is about ASCII only, below `0x80`. -/
theorem toNat_lt_of_isDigit {c : Char} (hc : c.isDigit = true) : c.toNat < 0x80 := by
  have h9 : c.toNat ≤ 57 := (Char.isDigit_iff_toNat.1 hc).2
  omega

/-- Whatever the `Letters`, no identifier starts with a digit. -/
theorem isNameStart_eq_false_of_isDigit {c : Char} (hc : c.isDigit = true) :
    isNameStart c = false := by
  have hletter : c.isAlpha = false := by
    grind [Char.isAlpha, Char.isUpper, Char.isLower, Char.isDigit]
  have hdollar : c ≠ '$' := by
    rintro rfl
    cases hc
  have hline : c ≠ '_' := by
    rintro rfl
    cases hc
  simp [isNameStart, toNat_lt_of_isDigit hc, hletter, hdollar, hline]

/-- Whatever the `Letters`, a digit can go on with an identifier. -/
theorem isNamePart_of_isDigit {c : Char} (hc : c.isDigit = true) : isNamePart c = true := by
  simp [isNamePart, toNat_lt_of_isDigit hc, Char.isAlphanum, hc]

end Names

/-! ## Tokens -/

/-- A token of a script. Texts are taken by their value, numbers too. -/
inductive Token where
  | word (w : String)
  | numeral (n : Nat)
  | text (s : String)
  | sign (s : String)
  deriving DecidableEq

/-- All signs of the language. `//` and `/*`, which open a comment, are there so that no sign is cut
before them. -/
def signs : List String :=
  ["\x7b", "\x7d", "(", ")", "[", "]", ".", "...", ";", ",", "<", ">", "<=", ">=", "==", "!=",
   "===", "!==", "+", "-", "*", "/", "%", "**", "++", "--", "<<", ">>", ">>>", "&", "|", "^",
   "!", "~", "&&", "||", "??", "?", "?.", ":", "=", "+=", "-=", "*=", "/=", "%=", "**=", "<<=",
   ">>=", ">>>=", "&=", "|=", "^=", "&&=", "||=", "??=", "=>", "//", "/*"]

/-- Some of `signs` starts with the characters `cs`. -/
def startsSign (cs : List Char) : Bool := signs.any fun s => cs.isPrefixOf s.toList

/-! ## Scanning -/

/-- What is known of the token under way. -/
inductive Scan where
  /-- No token is under way. -/
  | blank
  | word (cs : List Char)
  | numeral (digits : List Char)
  | sign (cs : List Char)
  /-- Inside a quoted text. -/
  | text (cs : List Char)
  /-- Behind a backslash in a quoted text. -/
  | escape (cs : List Char)
  /-- In the code of a character in a quoted text. -/
  | code (cs digits : List Char)
  /-- Behind the closing quote. -/
  | closed (cs : List Char)
  /-- No token starts like this. -/
  | broken

/-- The character that a backslash and one letter stand for. -/
def escapedBy : Char → Option Char
  | '"' => some '"'
  | '\\' => some '\\'
  | 'b' => some '\x08'
  | 'f' => some '\x0c'
  | 'n' => some '\n'
  | 'r' => some '\r'
  | 't' => some '\t'
  | 'v' => some '\x0b'
  | _ => none

/-- The value of a hexadecimal digit in lower case. -/
def hexValue (c : Char) : Option Nat :=
  if c.isDigit then some (c.toNat - 48)
  else if 'a' ≤ c ∧ c ≤ 'f' then some (c.toNat - 87)
  else none

/-- The character of the code `digits`, if there is one. -/
def charOfHex (digits : List Char) : Option Char := do
  let values ← digits.mapM hexValue
  let n := values.foldl (fun n v => 16 * n + v) 0
  if n.isValidChar then some (Char.ofNat n) else none

variable [Letters]

namespace Scan

/-- The scan after `c` has started a token, or was a blank. -/
def start (c : Char) : Scan :=
  if isNameStart c then .word [c]
  else if c.isDigit then .numeral [c]
  else if c = '"' then .text []
  else if c.isWhitespace then .blank
  else if startsSign [c] then .sign [c]
  else .broken

/-- The scan after one more character of the token under way, or `none` if the token has ended
before it. -/
def extend : Scan → Char → Option Scan
  | .blank, _ => none
  | .word cs, c => if isNamePart c then some (.word (cs ++ [c])) else none
  -- a number runs on into a fraction, an exponent or a suffix, which are no whole numbers
  | .numeral ds, c =>
    if c.isDigit ∧ ds ≠ ['0'] then some (.numeral (ds ++ [c]))
    else if isNamePart c ∨ c = '.' then some .broken
    else none
  | .sign cs, c => if startsSign (cs ++ [c]) then some (.sign (cs ++ [c])) else none
  | .text cs, c =>
    some <|
      if c = '"' then .closed cs
      else if c = '\\' then .escape cs
      else if c = '\n' ∨ c = '\r' then .broken
      else .text (cs ++ [c])
  | .escape cs, c =>
    some <|
      if c = 'u' then .code cs []
      else match escapedBy c with
        | some d => .text (cs ++ [d])
        | none => .broken
  | .code cs ds, c =>
    some <|
      if ds.length < 3 then .code cs (ds ++ [c])
      else match charOfHex (ds ++ [c]) with
        | some d => .text (cs ++ [d])
        | none => .broken
  | .closed _, _ => none
  | .broken, _ => some .broken

/-- The tokens of a scan at the end of a text: the one under way, if it can end here. -/
def close : Scan → Option (List Token)
  | .blank => some []
  | .word cs => some [.word (String.ofList cs)]
  | .numeral ds => some [.numeral (Nat.ofDigitChars 10 ds 0)]
  | .sign cs => if String.ofList cs ∈ signs then some [.sign (String.ofList cs)] else none
  | .closed cs => some [.text (String.ofList cs)]
  | .text _ | .escape _ | .code .. | .broken => none

end Scan

/-- Scanning goes from left to right. It gives the tokens that have ended, and the scan at the
end. -/
def scan (s : Scan) : List Char → Option (List Token × Scan)
  | [] => some ([], s)
  | c :: rest =>
    match s.extend c with
    | some s' => scan s' rest
    | none => do
      let done ← s.close
      let (more, s') ← scan (.start c) rest
      return (done ++ more, s')

/-- The tokens of `text`, if it can be cut into tokens. -/
def lex (text : String) : Option (List Token) := do
  let (done, s) ← scan .blank text.toList
  let last ← s.close
  return done ++ last

/-! ## Cutting texts into tokens -/

/-- What the last token of a text lets follow. -/
inductive Edge where
  /-- Anything. -/
  | closed
  /-- What makes no other sign of a dot or of an operator of one operand. -/
  | sign
  /-- What cannot go on with a word. -/
  | word
  /-- What can go on neither with a word nor with a number. -/
  | numeral

/-- The character may follow without going on with the last token. -/
def Edge.Allows : Edge → Char → Prop
  | .closed, _ => True
  | .sign, c => c ≠ '-' ∧ c ≠ '=' ∧ c ≠ '.'
  | .word, c => isNamePart c = false
  | .numeral, c => isNamePart c = false ∧ c ≠ '.'

/-- `cs` are cut into `ts`, and the last one ends before each character that `edge` allows. -/
def Cuts (edge : Edge) (cs : List Char) (ts : List Token) : Prop :=
  ∃ us s vs, scan .blank cs = some (us, s) ∧ s.close = some vs ∧ us ++ vs = ts ∧
    ∀ c, edge.Allows c → s.extend c = none

/-- `scan` goes through `cs` and then through `ds`. -/
theorem scan_append (s : Scan) (cs ds : List Char) :
    scan s (cs ++ ds) = (scan s cs).bind fun p => (scan p.2 ds).map fun q => (p.1 ++ q.1, q.2) := by
  induction cs generalizing s with
  | nil => cases h : scan s ds <;> simp [scan, h]
  | cons c cs ih =>
    simp only [List.cons_append, scan]
    cases s.extend c with
    | some s' => exact ih s'
    | none =>
      cases s.close <;> cases h : scan (.start c) cs <;> simp [ih, h]
      cases scan _ ds <;> simp

/-- Behind a blank, `c` starts a token. -/
theorem scan_blank_cons (c : Char) (ds : List Char) :
    scan .blank (c :: ds) = scan (.start c) ds := by
  simp only [scan, Scan.extend, Scan.close]
  cases scan (.start c) ds <;> simp

/-- If `c` does not go on with the token under way, that token is closed, and `c` starts the next
one. -/
theorem scan_of_extend_none {s : Scan} {c : Char} {ds : List Char} {vs : List Token}
    (hs : s.close = some vs) (hc : s.extend c = none) :
    scan s (c :: ds) = (scan .blank (c :: ds)).map fun q => (vs ++ q.1, q.2) := by
  rw [scan_blank_cons]
  simp only [scan, hc, hs]
  cases scan (.start c) ds <;> simp

/-- What is cut into `ts` has the tokens `ts`, as nothing follows. -/
theorem Cuts.lex {edge : Edge} {text : String} {ts : List Token} (h : Cuts edge text.toList ts) :
    lex text = some ts := by
  obtain ⟨us, s, vs, hscan, hclose, rfl, -⟩ := h
  simp [Script.lex, hscan, hclose]

/-- A stricter edge `edge'` will do as well. -/
theorem Cuts.mono {edge edge' : Edge} {cs : List Char} {ts : List Token} (h : Cuts edge cs ts)
    (he : ∀ c, edge'.Allows c → edge.Allows c) : Cuts edge' cs ts := by
  obtain ⟨us, s, vs, hscan, hclose, hts, hedge⟩ := h
  exact ⟨us, s, vs, hscan, hclose, hts, fun c hc => hedge c (he c hc)⟩

/-- Texts after each other, where the first character of `ds` may follow `cs`. -/
theorem Cuts.append {e e' : Edge} {cs ds : List Char} {ts us : List Token} (h : Cuts e cs ts)
    (h' : Cuts e' ds us) (hd : ∃ c ∈ ds.head?, e.Allows c) : Cuts e' (cs ++ ds) (ts ++ us) := by
  obtain ⟨ts', s, vs, hscan, hclose, rfl, hedge⟩ := h
  obtain ⟨us', s', vs', hscan', hclose', rfl, hedge'⟩ := h'
  obtain ⟨c, hc, hallows⟩ := hd
  obtain ⟨ds, rfl⟩ : ∃ rest, ds = c :: rest := by
    cases ds with
    | nil => cases hc
    | cons d ds => exact ⟨ds, by simpa using hc⟩
  refine ⟨ts' ++ (vs ++ us'), s', vs', ?_, hclose', by simp, hedge'⟩
  rw [scan_append, hscan]
  simp [scan_of_extend_none hclose (hedge c hallows), hscan']

/-- No characters are cut into no tokens. -/
theorem Cuts.nil {edge : Edge} : Cuts edge [] [] := ⟨[], .blank, [], rfl, rfl, rfl, fun _ _ => rfl⟩

/-- Anything may follow what is `closed`. -/
theorem Cuts.append_closed {e : Edge} {cs ds : List Char} {ts us : List Token}
    (h : Cuts .closed cs ts) (h' : Cuts e ds us) : Cuts e (cs ++ ds) (ts ++ us) := by
  cases ds with
  | cons d ds => exact h.append h' ⟨d, rfl, trivial⟩
  | nil =>
    obtain ⟨us', s', vs', hscan', hclose', rfl, -⟩ := h'
    cases hscan'
    cases hclose'
    simpa using h.mono (fun _ _ => trivial)

/-! ## Single tokens -/

/-- A word goes on as long as there are name characters. -/
theorem scan_word (cs ds : List Char) (hds : ds.all isNamePart = true) :
    scan (.word cs) ds = some ([], .word (cs ++ ds)) := by
  induction ds generalizing cs with
  | nil => simp [scan]
  | cons d ds ih =>
    simp only [List.all_cons, Bool.and_eq_true] at hds
    simp [scan, Scan.extend, hds.1, ih _ hds.2]

/-- A name is cut into one word. -/
theorem cuts_word {w : String} (hw : isName w = true) : Cuts .word w.toList [.word w] := by
  unfold isName at hw
  cases hcs : w.toList with
  | nil => simp [hcs] at hw
  | cons c cs =>
    simp only [hcs, Bool.and_eq_true] at hw
    refine ⟨[], .word (c :: cs), [.word w], ?_, ?_, rfl, ?_⟩
    · simp [scan_blank_cons, Scan.start, hw.1, scan_word _ _ hw.2]
    · rw [Scan.close, ← hcs, String.ofList_toList]
    · intro d hd
      have : isNamePart d = false := hd
      simp [Scan.extend, this]

/-- A number that does not start with `0` goes on as long as there are digits. -/
theorem scan_numeral (d : Char) (ds es : List Char) (hd : d ≠ '0')
    (hes : ∀ c ∈ es, c.isDigit = true) :
    scan (.numeral (d :: ds)) es = some ([], .numeral (d :: ds ++ es)) := by
  induction es generalizing ds with
  | nil => simp [scan]
  | cons e es ih =>
    have hrest := ih (ds ++ [e]) fun c hc => hes c (List.mem_cons_of_mem _ hc)
    simpa [scan, Scan.extend, hes e (List.mem_cons_self ..), hd] using hrest

omit [Letters] in
/-- `Nat.toDigits` has no leading zero, except for `0` itself. -/
theorem head?_toDigits {n : Nat} (hn : 0 < n) : (Nat.toDigits 10 n).head? ≠ some '0' := by
  induction n using Nat.strongRecOn with
  | ind n ih =>
    by_cases hlt : n < 10
    · rw [Nat.toDigits_of_lt_base hlt]
      have hdigit : ∀ d < 10, 0 < d → [d.digitChar].head? ≠ some '0' := by decide
      exact hdigit n hlt hn
    · rw [Nat.toDigits_of_base_le (by omega) (by omega), List.head?_append,
        Option.or_of_isSome (by simp)]
      exact ih (n / 10) (by omega) (by omega)

/-- The digits of `n` are scanned as one number. -/
theorem scan_toDigits (n : Nat) :
    scan .blank (Nat.toDigits 10 n) = some ([], .numeral (Nat.toDigits 10 n)) := by
  have hdigits : ∀ c ∈ Nat.toDigits 10 n, c.isDigit = true :=
    fun c hc => Nat.isDigit_of_mem_toDigits (by omega) (by omega) hc
  have hhead := head?_toDigits (n := n)
  cases hds : Nat.toDigits 10 n with
  | nil => exact absurd hds Nat.toDigits_ne_nil
  | cons d ds =>
    rw [hds] at hdigits hhead
    have hd : d.isDigit = true := hdigits d (List.mem_cons_self ..)
    have hstart : Scan.start d = .numeral [d] := by
      simp [Scan.start, isNameStart_eq_false_of_isDigit hd, hd]
    rw [scan_blank_cons, hstart]
    by_cases hzero : n = 0
    · subst hzero
      cases hds
      rfl
    · have hne : d ≠ '0' := fun h => hhead (by omega) (by simp [h])
      simpa using scan_numeral d [] ds hne fun c hc => hdigits c (List.mem_cons_of_mem _ hc)

/-- `Decimal.digitsText n` is cut into the one number `n`. -/
theorem cuts_numeral (n : Nat) : Cuts .numeral (Decimal.digitsText n).toList [.numeral n] := by
  refine ⟨[], .numeral (Nat.toDigits 10 n), [.numeral n], ?_, ?_, rfl, ?_⟩
  · simpa [Decimal.digitsText] using scan_toDigits n
  · simp [Scan.close]
  · rintro c ⟨hrest, hdot⟩
    have hdigit : ¬ c.isDigit = true := fun h => by simp [isNamePart_of_isDigit h] at hrest
    simp [Scan.extend, hrest, hdot, hdigit]

/-- Four hexadecimal digits behind `\u` stand for the control character `n`. -/
theorem scan_hex (cs : List Char) {n : Nat} (hn : n < 0x20) :
    scan (.code cs []) (Text.hex n 4).toList = some ([], .text (cs ++ [Char.ofNat n])) := by
  have hcodes : ∀ n < 0x20, (Text.hex n 4).toList.length = 4 ∧
      charOfHex (Text.hex n 4).toList = some (Char.ofNat n) := by
    decide
  obtain ⟨hlength, hchar⟩ := hcodes n hn
  match (Text.hex n 4).toList, hlength, hchar with
  | [a, b, c, d], _, hchar => simp [scan, Scan.extend, hchar]

/-- `Text.escape c` stands for `c` inside a quoted text. -/
theorem scan_escape (cs : List Char) (c : Char) :
    scan (.text cs) (Text.escape c).toList = some ([], .text (cs ++ [c])) := by
  by_cases hletter : c ∈ ['"', '\\', '\x08', '\x0c', '\n', '\r', '\t']
  · simp only [List.mem_cons, List.not_mem_nil, or_false] at hletter
    obtain rfl | rfl | rfl | rfl | rfl | rfl | rfl := hletter <;> rfl
  · simp only [List.mem_cons, List.not_mem_nil, or_false, not_or] at hletter
    simp only [Text.escape, hletter, if_false]
    split
    next hcontrol =>
      rw [String.toList_append, scan_append]
      simp [scan, Scan.extend, scan_hex cs hcontrol]
    · simp [scan, Scan.extend, hletter]

/-- `Text.quote s` is cut into the one text `s`. -/
theorem cuts_text (s : String) : Cuts .closed (Text.quote s).toList [.text s] := by
  have hinner : ∀ cs ds : List Char, scan (.text cs) (ds.flatMap fun c => (Text.escape c).toList) =
      some ([], .text (cs ++ ds)) := by
    intro cs ds
    induction ds generalizing cs with
    | nil => simp [scan]
    | cons d ds ih =>
      rw [List.flatMap_cons, scan_append, scan_escape]
      simp [ih]
  refine ⟨[], .closed s.toList, [.text s], ?_, by simp [Scan.close], rfl, fun _ _ => rfl⟩
  have hquote : (Text.quote s).toList =
      '"' :: ((s.toList.flatMap fun c => (Text.escape c).toList) ++ ['"']) := by
    simp [Text.quote, String.toList_join, List.flatMap_map]
  have hstart : Scan.start '"' = .text [] := rfl
  rw [hquote, scan_blank_cons, hstart, scan_append, hinner]
  simp [scan, Scan.extend]

/-- The characters that make a longer start of a sign out of `cs`. -/
def continuations (cs : List Char) : List Char :=
  (signs.filter fun s => cs.isPrefixOf s.toList).filterMap fun s => (s.toList.drop cs.length).head?

/-- Every other character ends the sign `cs`. -/
theorem extend_sign_eq_none {cs : List Char} {c : Char} (hc : c ∉ continuations cs) :
    (Scan.sign cs).extend c = none := by
  have hnone : startsSign (cs ++ [c]) = false := by
    simp only [startsSign, List.any_eq_false]
    intro s hs hlong
    obtain ⟨rest, hrest⟩ := List.isPrefixOf_iff_prefix.1 hlong
    have hshort : cs.isPrefixOf s.toList = true :=
      List.isPrefixOf_iff_prefix.2 ⟨[c] ++ rest, by simp [← hrest]⟩
    exact hc (List.mem_filterMap.2 ⟨s, List.mem_filter.2 ⟨hs, hshort⟩, by simp [← hrest]⟩)
  simp [Scan.extend, hnone]

/-- `unarySign op` is cut into one sign. -/
theorem cuts_unarySign (op : UnaryOp) :
    Cuts .sign (unarySign op).toList [.sign (unarySign op)] := by
  have hchars :
      (continuations (unarySign op).toList).all (fun c => c == '-' || c == '=') = true := by
    cases op <;> rfl
  refine ⟨[], .sign (unarySign op).toList, _, by cases op <;> rfl, by cases op <;> rfl, rfl, ?_⟩
  rintro c ⟨hminus, hequals, -⟩
  refine extend_sign_eq_none fun hc => ?_
  simpa [hminus, hequals] using List.all_eq_true.1 hchars c hc

/-- A dot is cut into one sign. -/
theorem cuts_dot : Cuts .sign ".".toList [.sign "."] := by
  have hchars : (continuations ['.']).all (fun c => c == '.') = true := rfl
  refine ⟨[], .sign ['.'], _, rfl, rfl, rfl, ?_⟩
  rintro c ⟨-, -, hdot⟩
  refine extend_sign_eq_none fun hc => ?_
  simpa [hdot] using List.all_eq_true.1 hchars c hc

/-- An identifier may follow a `sign`. -/
theorem allows_of_isNameStart {c : Char} (hc : isNameStart c = true) : Edge.sign.Allows c := by
  refine ⟨?_, ?_, ?_⟩ <;> rintro rfl <;> cases hc

/-- A digit may follow a `sign`. The dot of an access is followed by a name, never by a digit. -/
theorem allows_of_isDigit {c : Char} (hc : c.isDigit = true) : Edge.sign.Allows c := by
  refine ⟨?_, ?_, ?_⟩ <;> rintro rfl <;> cases hc

/-- `Decimal.digitsText n` may follow a `sign`. -/
theorem allows_digitsText (n : Nat) :
    ∃ c ∈ (Decimal.digitsText n).toList.head?, Edge.sign.Allows c := by
  have hne : Nat.toDigits 10 n ≠ [] := Nat.toDigits_ne_nil
  obtain ⟨c, cs, hcs⟩ := List.exists_cons_of_ne_nil hne
  have hdigit : c.isDigit = true :=
    Nat.isDigit_of_mem_toDigits (by omega) (by omega) (hcs ▸ List.mem_cons_self ..)
  exact ⟨c, by simp [Decimal.digitsText, hcs], allows_of_isDigit hdigit⟩

/-! ## Documents -/

/-- However `d` is laid out, its text is cut into `ts`. -/
def Lexes (edge : Edge) (d : Doc) (ts : List Token) : Prop :=
  d.isPlain = true ∧ ∀ cs, d.Shows cs → Cuts edge cs ts

/-- `c` ends every token before it, except for a quoted text. -/
def isBreak (c : Char) : Bool := !isNamePart c && c != '.' && c != '-' && c != '='

/-- A break may follow whatever the `edge`. -/
theorem Edge.allows_of_isBreak {c : Char} (hc : isBreak c = true) (edge : Edge) :
    edge.Allows c := by
  simp only [isBreak, Bool.and_eq_true, Bool.not_eq_true', bne_iff_ne] at hc
  obtain ⟨⟨⟨hrest, hdot⟩, hminus⟩, hequals⟩ := hc
  cases edge with
  | closed => trivial
  | sign => exact ⟨hminus, hequals, hdot⟩
  | word => exact hrest
  | numeral => exact ⟨hrest, hdot⟩

namespace Lexes

variable {e e' : Edge} {d d' : Doc} {ts us : List Token}

/-- A stricter edge `e'` will do as well. -/
theorem mono (h : Lexes e d ts) (he : ∀ c, e'.Allows c → e.Allows c) : Lexes e' d ts :=
  ⟨h.1, fun cs hcs => (h.2 cs hcs).mono he⟩

/-- What is `closed` has every edge. -/
theorem weaken (h : Lexes .closed d ts) : Lexes e d ts := h.mono fun _ _ => trivial

theorem nil : Lexes e .nil [] := ⟨rfl, fun _ hcs => by cases hcs; exact .nil⟩

/-- Documents after each other, where the first character of `d'` may follow `d`. -/
theorem cat (h : Lexes e d ts) (h' : Lexes e' d' us)
    (hc : ∃ c ∈ d'.firstChar, e.Allows c) : Lexes e' (d ++ d') (ts ++ us) := by
  refine ⟨by simp [h.1, h'.1], fun cs hcs => ?_⟩
  obtain ⟨as, bs, rfl, has, hbs⟩ := Doc.shows_cat hcs
  exact (h.2 as has).append (h'.2 bs hbs) (hbs.head? ▸ hc)

/-- Documents after each other, where `d'` starts with a break. -/
theorem cat_break (h : Lexes e d ts) (h' : Lexes e' d' us) (hc : d'.firstChar.any isBreak = true) :
    Lexes e' (d ++ d') (ts ++ us) := by
  obtain ⟨c, hc, hbreak⟩ := (Option.any_eq_true ..).1 hc
  exact h.cat h' ⟨c, hc, e.allows_of_isBreak hbreak⟩

/-- The same, where the text `s` that starts with a break is in front of the `rest`. -/
theorem cat_text {s : String} {rest : Doc} (h : Lexes e d ts) (h' : Lexes e' (.text s ++ rest) us)
    (hs : s.toList.head?.any isBreak = true) : Lexes e' (d ++ (.text s ++ rest)) (ts ++ us) := by
  refine h.cat_break h' ?_
  cases hc : s.toList.head? with
  | none => simp [hc] at hs
  | some c => simpa [Doc.firstChar, hc] using hs

/-- Anything may follow a `closed` document. -/
theorem cat_closed (h : Lexes .closed d ts) (h' : Lexes e d' us) :
    Lexes e (d ++ d') (ts ++ us) := by
  refine ⟨by simp [h.1, h'.1], fun cs hcs => ?_⟩
  obtain ⟨as, bs, rfl, has, hbs⟩ := Doc.shows_cat hcs
  exact (h.2 as has).append_closed (h'.2 bs hbs)

theorem indent {n : Nat} (h : Lexes e d ts) : Lexes e (.indent n d) ts :=
  ⟨by simp [h.1], fun cs hcs => h.2 cs (Doc.shows_indent hcs)⟩

theorem text {s : String} (h : Cuts e s.toList ts) : Lexes e (.text s) ts :=
  ⟨rfl, fun _ hcs => by cases hcs; exact h⟩

theorem styled {style : Style} {s : String} (h : Cuts e s.toList ts) :
    Lexes e (.styled style s) ts :=
  ⟨rfl, fun _ hcs => by cases hcs; exact h⟩

theorem str {s : String} (h : Cuts e s.toList ts) : Lexes e (.str s) ts := by
  unfold Doc.str
  split
  next hs =>
    refine ⟨rfl, fun _ hcs => ?_⟩
    cases hcs
    simpa [hs] using h
  · exact .text h

/-- A text that ends with a blank is `closed`. -/
theorem blank {s : String} (h : scan .blank s.toList = some (ts, .blank)) :
    Lexes .closed (.text s) ts :=
  .text ⟨ts, .blank, [], h, rfl, List.append_nil ts, fun _ _ => rfl⟩

/-- So is a text that ends with a sign that has no `continuations`. -/
theorem sign (ts : List Token) {s : String} {cs : List Char}
    (h : scan .blank s.toList = some (ts, .sign cs))
    (hwhole : continuations cs = []) (hcs : String.ofList cs ∈ signs) :
    Lexes .closed (.text s) (ts ++ [.sign (String.ofList cs)]) :=
  .text ⟨ts, .sign cs, _, h, if_pos hcs, rfl, fun c _ => extend_sign_eq_none (by simp [hwhole])⟩

theorem hardline : Lexes .closed .hardline [] := by
  have hspaces : ∀ n, scan .blank (List.replicate n ' ') = some ([], .blank) := by
    intro n
    induction n with
    | zero => rfl
    | succ n ih =>
      rw [List.replicate_succ, scan_blank_cons]
      exact ih
  refine ⟨rfl, fun cs hcs => ?_⟩
  cases hcs with
  | hardline =>
    refine ⟨[], .blank, [], ?_, rfl, rfl, fun _ _ => rfl⟩
    rw [lineBreak, scan_blank_cons]
    exact hspaces _

end Lexes

/-- Rendered at any `width`, `d` has the tokens `ts`. -/
theorem Lexes.lex_render {edge : Edge} {d : Doc} {ts : List Token} (h : Lexes edge d ts)
    (width : Nat) : lex (d.render width false) = some ts :=
  (h.2 _ (Doc.shows_render h.1 width)).lex

end TailLoop.Script
