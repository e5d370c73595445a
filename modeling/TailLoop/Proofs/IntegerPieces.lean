import TailLoop.Proofs.LineWidths
import TailLoop.Proofs.Tokens
import TailLoop.Proofs.Trails

/-!
# Integers in the texts of scripts

The text of a script is written piece by piece, and numbers and truth values are pieces of their
own, highlighted in one style. Such a piece is an integer if it is a numeral of the script language,
perhaps behind a minus sign. An integer is written as a piece that is this integer; doubles and
truth values are written as pieces that are no integers. So the integers among the pieces of a text
are those of the script, in order.

* `Doc.filter_chunks`: the highlighted pieces of a document, whatever the line width.
* `lex_intText`: the text of an integer.
* `lex_literalText`: the text of a double is no integer.
* `integers_module`: the integers among the pieces of a module.
-/

namespace TailLoop.Layout

/-! ## Highlighted pieces -/

/-- The highlighted pieces of a document without optional breaks, in order. -/
def Doc.highlights : Doc → List Chunk
  | .styled style s => [⟨some style, s⟩]
  | .append l r => l.highlights ++ r.highlights
  | .nest _ d => d.highlights
  | _ => []

/-- `highlights` goes through documents one by one. -/
theorem Doc.highlights_cat (d d' : Doc) : (d ++ d').highlights = d.highlights ++ d'.highlights := by
  show (cat d d').highlights = _
  unfold cat
  split <;> simp [highlights]

/-- The highlighted pieces that are on the page `p`. -/
def Page.highlights (p : Page) : List Chunk := p.chunks.reverse.filter fun c => c.style.isSome

/-- `settle` starts a line, which is not highlighted. -/
theorem Page.highlights_settle (p : Page) (indent : Nat) :
    (p.settle indent).highlights = p.highlights := by
  unfold settle
  split
  · simp [highlights, newline]
  · rfl

/-- If `d` has no optional breaks, it adds its `highlights` to the page. -/
theorem Doc.highlights_layOut {d : Doc} (hd : d.isPlain = true) (width ind : Nat) (mode : Mode)
    (rest : List Doc) (p : Page) :
    (d.layOut width ind mode rest p).highlights = p.highlights ++ d.highlights := by
  induction d generalizing ind rest p with
  | nil => simp [layOut, Page.highlights_settle, highlights]
  | text s | styled style s =>
    rw [← Page.highlights_settle p ind]
    simp [layOut, Page.highlights, Page.write, highlights]
  | hardline =>
    rw [← Page.highlights_settle p ind]
    simp [layOut, Page.highlights, highlights]
  | append l r ihl ihr =>
    obtain ⟨hl, hr⟩ := Bool.and_eq_true_iff.1 hd
    rw [layOut, ihr hr, ihl hl, highlights, List.append_assoc]
  | nest n d ih => rw [layOut, ih hd, Page.highlights_settle, highlights]
  | align | group | flatAlt => cases hd

/-- Laid out for any `width`, `d` has its `highlights`. -/
theorem Doc.filter_chunks {d : Doc} (hd : d.isPlain = true) (width : Nat) :
    ((d.chunks width).filter fun c => c.style.isSome) = d.highlights := by
  have hfinish (p : Page) : (p.finish.filter fun c => c.style.isSome) = p.highlights := by
    unfold Page.finish
    split
    · simp [Page.highlights, Page.newline]
    · rfl
  rw [chunks, hfinish, highlights_layOut hd]
  rfl

end TailLoop.Layout

namespace TailLoop.Script

open Layout

/-! ## Numerals -/

/-- The integer that a token list is, if it is one. -/
def tokensInteger? : List Token → Option Int
  | [.numeral n] => some n
  | [.sign "-", .numeral n] => some (-n)
  | _ => none

/-- The digits in `cs` run on into something that is no part of a numeral. -/
def RunsOn (cs : List Char) : Prop :=
  ∃ ds c rest, cs = ds ++ c :: rest ∧ ds ≠ [] ∧ (∀ d ∈ ds, d.isDigit = true) ∧ (c = '.' ∨ c = 'e')

/-- `positional` has a point behind its first digits. -/
theorem runsOn_positional (d : Decimal.Numeral) : RunsOn d.positional.toList := by
  have hdigits : ∀ c ∈ Nat.toDigits 10 d.digits, c.isDigit = true :=
    fun c hc => Nat.isDigit_of_mem_toDigits (by omega) (by omega) hc
  have hne : Nat.toDigits 10 d.digits ≠ [] := Nat.toDigits_ne_nil
  unfold Decimal.Numeral.positional
  split
  · refine ⟨Nat.toDigits 10 d.digits ++ List.replicate d.exponent.toNat '0', '.', ['0'],
      by simp [Decimal.zeros], by simp [hne], ?_, .inl rfl⟩
    intro c hc
    rcases List.mem_append.1 hc with hc | hc
    · exact hdigits c hc
    · rw [List.eq_of_mem_replicate hc]
      rfl
  · simp only
    split
    · rename_i hplaces
      refine ⟨(Nat.toDigits 10 d.digits).take
        ((Nat.toDigits 10 d.digits).length - (-d.exponent).toNat), '.', _, by simp; rfl, ?_,
        fun c hc => hdigits c (List.mem_of_mem_take hc), .inl rfl⟩
      intro hnil
      have hlength := congrArg List.length hnil
      simp at hlength
      omega
    · exact ⟨['0'], '.', _, by simp; rfl, by simp, by simp, .inl rfl⟩

/-- `scientific` has a point or the mark of the exponent behind its first digit. -/
theorem runsOn_scientific (s : Decimal.Style) (d : Decimal.Numeral) :
    RunsOn (d.scientific s).toList := by
  obtain ⟨c, cs, hds⟩ :=
    List.exists_cons_of_ne_nil (Nat.toDigits_ne_nil (b := 10) (n := d.digits))
  have hdigit : c.isDigit = true :=
    Nat.isDigit_of_mem_toDigits (by omega) (by omega) (hds ▸ List.mem_cons_self ..)
  unfold Decimal.Numeral.scientific
  rw [hds]
  simp only
  split
  · exact ⟨[c], 'e', _, by simp; rfl, by simp, by simp [hdigit], .inr rfl⟩
  · exact ⟨[c], '.', _, by simp; rfl, by simp, by simp [hdigit], .inl rfl⟩

/-! ## Pieces -/

variable [Letters]

/-- The integer that the piece `c` is, if it is one: a numeral, perhaps behind a minus sign, that is
highlighted as a constant. -/
def integer? (c : Chunk) : Option Int :=
  if c.style = some { color := .cyan } then (lex c.text).bind tokensInteger? else none

/-- `intText` is a numeral, behind a minus sign if `i` is negative. -/
theorem lex_intText (i : Int) : (lex (Decimal.intText i)).bind tokensInteger? = some i := by
  have hnumeral := cuts_numeral i.natAbs
  unfold Decimal.intText
  split
  · have hcut := (cuts_unarySign .negate).append hnumeral (allows_digitsText i.natAbs)
    have htext : Cuts .numeral ("-" ++ Decimal.digitsText i.natAbs).toList
        [.sign "-", .numeral i.natAbs] := by
      simpa [unarySign] using hcut
    rw [htext.lex]
    simp only [Option.bind_some, tokensInteger?]
    congr 1
    omega
  · rw [hnumeral.lex]
    simp only [Option.bind_some, tokensInteger?]
    congr 1
    omega

/-! ## Doubles -/

/-- `broken` stays so to the end. -/
theorem scan_broken (cs : List Char) : scan .broken cs = some ([], .broken) := by
  induction cs with
  | nil => rfl
  | cons c cs ih => exact ih

/-- A numeral that runs on is no token. -/
theorem scan_numeral_runsOn (ds : List Char) (hds : ∀ d ∈ ds, d.isDigit = true) {c : Char}
    (hc : c = '.' ∨ c = 'e') (es rest : List Char) :
    scan (.numeral es) (ds ++ c :: rest) = some ([], .broken) := by
  induction ds generalizing es with
  | nil =>
    have hstop : (Scan.numeral es).extend c = some .broken := by
      rcases hc with rfl | rfl <;> rfl
    simp [scan, hstop, scan_broken]
  | cons d ds ih =>
    obtain ⟨hd, hds⟩ := List.forall_mem_cons.1 hds
    by_cases hzero : es = ['0']
    · have hstop : (Scan.numeral es).extend d = some .broken := by
        simp [Scan.extend, hzero, isNamePart_of_isDigit hd]
      simp [scan, hstop, scan_broken]
    · have hnext : (Scan.numeral es).extend d = some (.numeral (es ++ [d])) := by
        simp [Scan.extend, hzero, hd]
      simpa [scan, hnext] using ih hds (es ++ [d])

/-- Digits that run on are no token. -/
theorem RunsOn.scan {cs : List Char} (h : RunsOn cs) : scan .blank cs = some ([], .broken) := by
  obtain ⟨ds, c, rest, rfl, hne, hds, hc⟩ := h
  obtain ⟨d, ds, rfl⟩ := List.exists_cons_of_ne_nil hne
  obtain ⟨hd, hds⟩ := List.forall_mem_cons.1 hds
  have hstart : Scan.start d = .numeral [d] := by
    simp [Scan.start, isNameStart_eq_false_of_isDigit hd, hd]
  rw [List.cons_append, scan_blank_cons, hstart, scan_numeral_runsOn ds hds hc]

/-- A text with digits that run on has no tokens, whatever stands in `before`. -/
theorem RunsOn.lex_eq_none {edge : Edge} {before body : String} {ts : List Token}
    (h : RunsOn body.toList) (hbefore : Cuts edge before.toList ts)
    (hedge : ∀ d : Char, d.isDigit = true → edge.Allows d) : lex (before ++ body) = none := by
  obtain ⟨us, s, vs, hscan, hclose, -, hextend⟩ := hbefore
  have hbroken := h.scan
  obtain ⟨digits, c, rest, hbody, hne, hdigits, -⟩ := h
  obtain ⟨d, digits, rfl⟩ := List.exists_cons_of_ne_nil hne
  have hd : d.isDigit = true := hdigits d (List.mem_cons_self ..)
  rw [List.cons_append] at hbody
  rw [hbody] at hbroken
  have hall : Script.scan .blank (before.toList ++ body.toList) = some (us ++ vs, .broken) := by
    rw [scan_append, hscan, hbody]
    simp [scan_of_extend_none hclose (hextend d (hedge d hd)), hbroken]
  rw [lex, String.toList_append, hall]
  rfl

/-- The text of a finite double has no tokens. -/
theorem lex_text (s : Decimal.Style) (x : Float) : lex (s.text x) = none := by
  have htext (d : Decimal.Numeral) : RunsOn (d.text s).toList := by
    unfold Decimal.Numeral.text
    split
    · exact runsOn_positional d
    · exact runsOn_scientific s d
  -- zero has a text of its own, and a sign may stand before either
  obtain ⟨body, hbody, heq⟩ : ∃ body : String, RunsOn body.toList ∧
      s.text x = (if Decimal.isNegative x then "-" else "") ++ body := by
    by_cases hzero : (Decimal.Binary.ofBits x.toBits).significand = 0
    · exact ⟨"0.0", ⟨['0'], '.', ['0'], rfl, by simp, by simp, .inl rfl⟩,
        by simp only [Decimal.Style.text, hzero, if_true]⟩
    · exact ⟨_, htext ((Decimal.Binary.ofBits x.toBits).shortest s.tie),
        by simp only [Decimal.Style.text, hzero, if_false]⟩
  rw [heq]
  split
  · exact hbody.lex_eq_none (cuts_unarySign .negate) fun d hd => allows_of_isDigit hd
  · have hnil : Cuts .closed "".toList [] := .nil
    exact hbody.lex_eq_none hnil fun d _ => trivial

/-- `literalText` of a double is no integer. -/
theorem lex_literalText (x : Float) :
    (lex (Decimal.literalText "Infinity" x)).bind tokensInteger? = none := by
  unfold Decimal.literalText
  split
  · rw [(cuts_word (w := "NaN") rfl).lex]
    rfl
  split
  · have hword : Cuts .word "Infinity".toList [.word "Infinity"] := cuts_word rfl
    split
    · have hcut := (cuts_unarySign .negate).append hword ⟨'I', rfl, allows_of_isNameStart rfl⟩
      have htext : Cuts .word ("-" ++ "Infinity").toList [.sign "-", .word "Infinity"] := by
        simpa [unarySign] using hcut
      rw [htext.lex]
      rfl
    · rw [String.empty_append, hword.lex]
      rfl
  · rw [lex_text]
    rfl

/-! ## Documents -/

/-- The integers among the highlighted pieces of `d`. -/
def integersIn (d : Doc) : List Int := d.highlights.filterMap integer?

/-- If `d` has no optional breaks, the integers among its pieces are `integersIn d`, whatever the
`width`. -/
theorem filterMap_integer?_chunks {d : Doc} (hd : d.isPlain = true) (width : Nat) :
    (d.chunks width).filterMap integer? = integersIn d := by
  have hplain (c : Chunk) (hc : (integer? c).isSome = true) : c.style.isSome = true := by
    unfold integer? at hc
    split at hc
    next hstyle => rw [hstyle]; rfl
    next => cases hc
  rw [integersIn, ← Doc.filter_chunks hd width, List.filterMap_filter]
  refine List.filterMap_congr fun c _ => ?_
  cases hc : integer? c with
  | none => simp
  | some i => rw [if_pos (hplain c (by rw [hc]; rfl))]

@[simp] theorem integersIn_text (s : String) : integersIn (.text s) = [] := rfl

@[simp] theorem integersIn_hardline : integersIn .hardline = [] := rfl

@[simp] theorem integersIn_space : integersIn Doc.space = [] := rfl

theorem integersIn_str (s : String) : integersIn (.str s) = [] := by
  unfold Doc.str
  split <;> rfl

@[simp] theorem integersIn_keyword (word : String) : integersIn (keyword word) = [] := rfl

@[simp] theorem integersIn_textDoc (s : String) : integersIn (textDoc s) = [] := rfl

/-- `constantDoc s` is an integer if `s` is the text of one. -/
theorem integersIn_constantDoc (s : String) :
    integersIn (constantDoc s) = ((lex s).bind tokensInteger?).toList := by
  have hpiece : integer? ⟨some { color := .cyan }, s⟩ = (lex s).bind tokensInteger? := if_pos rfl
  show List.filterMap integer? [_] = _
  rw [List.filterMap_cons, hpiece]
  cases (lex s).bind tokensInteger? <;> rfl

@[simp] theorem integersIn_cat (d d' : Doc) :
    integersIn (d ++ d') = integersIn d ++ integersIn d' := by
  rw [integersIn, Doc.highlights_cat, List.filterMap_append, integersIn, integersIn]

@[simp] theorem integersIn_indent (n : Nat) (d : Doc) :
    integersIn (.indent n d) = integersIn d := by
  cases d <;> rfl

@[simp] theorem integersIn_enclose (before after : String) (d : Doc) :
    integersIn (.enclose before after d) = integersIn d := by
  simp [Doc.enclose]

@[simp] theorem integersIn_parens (d : Doc) : integersIn (.parens d) = integersIn d :=
  integersIn_enclose ..

@[simp] theorem integersIn_brackets (d : Doc) : integersIn (.brackets d) = integersIn d :=
  integersIn_enclose ..

/-- A `separator` without integers leaves those of `ds`. -/
theorem integersIn_intersperse {separator : Doc} (h : integersIn separator = []) (ds : List Doc) :
    integersIn (.intersperse separator ds) = ds.flatMap integersIn := by
  induction ds with
  | nil => rfl
  | cons d rest ih =>
    cases rest with
    | nil => simp [Doc.intersperse]
    | cons d' rest => simp [Doc.intersperse, h, ih]

@[simp] theorem integersIn_commas (ds : List Doc) :
    integersIn (commas ds) = ds.flatMap integersIn := integersIn_intersperse rfl ds

@[simp] theorem integersIn_identDoc (name : String) : integersIn (identDoc name) = [] :=
  integersIn_str _

@[simp] theorem integersIn_outerName (name : String) : integersIn (outerName name) = [] := by
  unfold outerName
  split
  · exact integersIn_str name
  · rfl

@[simp] theorem integersIn_operandDoc (demanded : Nat) (e : Expr) (d : Doc) :
    integersIn (operandDoc demanded e d) = integersIn d := by
  unfold operandDoc
  split
  · exact integersIn_parens d
  · rfl

@[simp] theorem integersIn_guardedDoc (e : Expr) (d : Doc) :
    integersIn (guardedDoc e d) = integersIn d := by
  unfold guardedDoc
  split
  · exact integersIn_parens d
  · rfl

@[simp] theorem integersIn_paramsDoc (params : List String) :
    integersIn (paramsDoc params) = [] := by
  unfold paramsDoc
  split
  · exact integersIn_identDoc _
  · simp [List.flatMap_map]

@[simp] theorem integersIn_objectDoc (ds : List Doc) :
    integersIn (objectDoc ds) = ds.flatMap integersIn := by
  unfold objectDoc
  split
  · rfl
  · rw [integersIn_enclose, integersIn_commas]

@[simp] theorem integersIn_propertyDoc (property : String) :
    integersIn (propertyDoc property) = [] := by
  unfold propertyDoc
  split
  · rfl
  · exact integersIn_brackets _

@[simp] theorem integersIn_declarationDoc (word name : String) (value : Option Doc) :
    integersIn (declarationDoc word name value) = value.toList.flatMap integersIn := by
  cases value <;> simp [declarationDoc]

@[simp] theorem integersIn_wordStatement (word : String) (d : Doc) :
    integersIn (wordStatement word d) = integersIn d := by
  simp [wordStatement]

@[simp] theorem integersIn_linesDoc (ss : List StmtDoc) :
    integersIn (linesDoc ss) = ss.flatMap fun s => integersIn s.full := by
  rw [linesDoc, integersIn_intersperse rfl, List.flatMap_map]

@[simp] theorem integersIn_blockDoc (ss : List StmtDoc) :
    integersIn (blockDoc ss) = ss.flatMap fun s => integersIn s.full := by
  unfold blockDoc
  split <;> simp

/-- `bodyDoc` has the integers of its statements, if an expression that stands for a whole body has
those of its statement. -/
theorem integersIn_bodyDoc {ss : List StmtDoc}
    (h : ∀ s ∈ ss, ∀ d ∈ s.concise, integersIn d = integersIn s.full) :
    integersIn (bodyDoc ss) = ss.flatMap fun s => integersIn s.full := by
  unfold bodyDoc
  split
  · rw [List.flatMap_singleton]
    exact h _ (List.mem_singleton_self _) _ rfl
  · exact integersIn_blockDoc ss

/-- The expression that stands for `s` has its integers. -/
theorem Stmt.integersIn_concise (s : Stmt) :
    ∀ d ∈ s.doc.concise, integersIn d = integersIn s.doc.full := by
  cases s with
  | ret value | retObject value =>
    rintro _ ⟨⟩
    simp [Stmt.doc, returnDoc]
  | declare name value => cases value <;> nofun
  | _ => nofun

/-! ## Expressions and statements -/

/-- Integers are marked, and nothing else. -/
def integerMarking : Marking Int64 := { int := some }

mutual

/-- The integers among the pieces of an expression are those of the expression. The recursion
follows `Expr`. -/
theorem Expr.integersIn_doc : (e : Expr) →
    integersIn e.doc = (e.trail integerMarking).map Int64.toInt
  | .ident name => by simp [Expr.doc]
  | .int i => by
    simp [Expr.doc, integersIn_constantDoc, lex_intText, integerMarking]
  | .number x => by
    simp [Expr.doc, integersIn_constantDoc, lex_literalText]
  | .boolean b => by
    have hword : (lex (if b then "true" else "false")).bind tokensInteger? = none := by
      cases b
      · exact congrArg (Option.bind · _) (cuts_word (w := "false") rfl).lex
      · exact congrArg (Option.bind · _) (cuts_word (w := "true") rfl).lex
    simp [Expr.doc, integersIn_constantDoc, hword]
  | .text _ | .undefined => rfl
  | .array items => by simpa [Expr.doc] using integersIn_exprDocs items
  | .object fields => by simpa [Expr.doc] using integersIn_fieldDocs fields
  | .access e property => by simp [Expr.doc, e.integersIn_doc]
  | .index e position => by simp [Expr.doc, e.integersIn_doc, position.integersIn_doc]
  | .call callee args | .new callee args => by
    simpa [Expr.doc, callee.integersIn_doc] using integersIn_exprDocs args
  | .arrow params body => by
    have hconcise : ∀ s ∈ stmtDocs body, ∀ d ∈ s.concise, integersIn d = integersIn s.full := by
      rw [stmtDocs_eq_map]
      exact List.forall_mem_map.2 fun s _ => s.integersIn_concise
    simpa [Expr.doc, integersIn_bodyDoc hconcise] using integersIn_stmtDocs body
  | .unary _ operand => by simp [Expr.doc, operand.integersIn_doc]
  | .binary _ left right => by simp [Expr.doc, left.integersIn_doc, right.integersIn_doc]
  | .conditional test yes no => by
    simp [Expr.doc, test.integersIn_doc, yes.integersIn_doc, no.integersIn_doc]

theorem integersIn_exprDocs : (es : List Expr) →
    (exprDocs es).flatMap integersIn = (exprsTrail integerMarking es).map Int64.toInt
  | [] => rfl
  | e :: rest => by
    rw [exprDocs, List.flatMap_cons, e.integersIn_doc, integersIn_exprDocs rest, exprsTrail,
      List.map_append]

theorem Field.integersIn_doc : (f : Field) →
    integersIn f.doc = (f.trail integerMarking).map Int64.toInt
  | .field _ value | .spread value => by simp [Field.doc, value.integersIn_doc]

theorem integersIn_fieldDocs : (fs : List Field) →
    (fieldDocs fs).flatMap integersIn = (fieldsTrail integerMarking fs).map Int64.toInt
  | [] => rfl
  | f :: rest => by
    rw [fieldDocs, List.flatMap_cons, f.integersIn_doc, integersIn_fieldDocs rest, fieldsTrail,
      List.map_append]

/-- The integers among the pieces of a statement are those of the statement. -/
theorem Stmt.integersIn_doc : (s : Stmt) →
    integersIn s.doc.full = (s.trail integerMarking).map Int64.toInt
  | .const _ value | .declare _ (some value) | .assign _ value | .expr value | .ret value
  | .retObject value | .throw value => by
    simp [Stmt.doc, plainDoc, returnDoc, integerMarking, value.integersIn_doc]
  | .declare _ none | .retUndefined => by simp [Stmt.doc, plainDoc]
  | .again => by simp [Stmt.doc, plainDoc, integerMarking]
  | .chain arms => by
    have hseparator : integersIn (Doc.space ++ (keyword "else" ++ Doc.space)) = [] := rfl
    rw [Stmt.doc, plainDoc, integersIn_intersperse hseparator, integersIn_armDocs, Stmt.trail]
  | .loop body => by
    simpa [Stmt.doc, plainDoc, integerMarking] using integersIn_stmtDocs body

theorem integersIn_stmtDocs : (block : List Stmt) →
    ((stmtDocs block).flatMap fun s => integersIn s.full) =
      (trailIn integerMarking block).map Int64.toInt
  | [] => rfl
  | s :: rest => by
    rw [stmtDocs, List.flatMap_cons, s.integersIn_doc, integersIn_stmtDocs rest, trailIn,
      List.map_append]

theorem integersIn_armDocs : (arms : List (Expr × List Stmt)) →
    (armDocs arms).flatMap integersIn = (armsTrail integerMarking arms).map Int64.toInt
  | [] => rfl
  | (test, body) :: rest => by
    rw [armDocs, List.flatMap_cons, integersIn_armDocs rest, armsTrail, List.map_append,
      List.map_append, ← integersIn_stmtDocs body, ← test.integersIn_doc]
    simp [armDoc]

end

/-! ## Modules -/

/-- The line of `i` has no integers. -/
theorem integersIn_importDoc (i : Import) : integersIn i.doc = [] := by
  simp [Import.doc, fromDoc]

/-- A published name has no integers. -/
theorem integersIn_exportNameDoc (source : Option String) (name : String)
    (public? : Option String) : integersIn (exportNameDoc source name public?) = [] := by
  have hinner : integersIn (if source.isSome then outerName name else identDoc name) = [] := by
    split <;> simp
  unfold exportNameDoc
  cases publicName source name public? with
  | some p => simp [hinner]
  | none => exact hinner

/-- The line of `e` has no integers. -/
theorem integersIn_exportDoc (e : ExportList) : integersIn e.doc = [] := by
  have hnames : integersIn (commas (e.names.map fun n => exportNameDoc e.source n.1 n.2)) = [] := by
    simp [List.flatMap_map, integersIn_exportNameDoc]
  unfold ExportList.doc
  split <;> simp [Doc.braces, fromDoc, hnames]

/-- The integers among the pieces of the text of `m` are those of its declarations, in order,
whatever the line width. -/
theorem integers_module (m : Module) (width : Nat) :
    (m.doc.chunks width).filterMap integer? =
      (trailIn integerMarking m.declarations).map Int64.toInt := by
  rw [filterMap_integer?_chunks (isPlain_moduleDoc m), Module.doc, integersIn_intersperse rfl,
    List.flatMap_append, List.flatMap_append, List.flatMap_map, List.flatMap_map, List.flatMap_map,
    integersIn_stmtDocs]
  simp [integersIn_importDoc, integersIn_exportDoc]

end TailLoop.Script
