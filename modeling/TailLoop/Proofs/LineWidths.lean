import TailLoop.Proofs.DocTexts
import TailLoop.Script.Printer

/-!
# Line widths

The lines of a script end where the printer says so, and nowhere else. So the pieces of its text are
the same for every line width, and highlighting only puts control sequences around them.

* `Doc.chunks_congr`: documents without optional breaks have the same pieces at all widths.
* `withoutControls_colored`: a highlighted text without its control sequences.
* `Expr.isPlain_doc`, `isPlain_moduleDoc`: the documents of scripts have no optional breaks.
* `script_texts_fixed`: the texts of scripts, for all line widths, with highlighting and without.
-/

namespace TailLoop.Layout

/-! ## Documents without optional breaks -/

namespace Doc

/-- If `d` has no optional breaks, it is laid out in one way: neither the line width matters, nor
the mode, nor what follows. -/
theorem layOut_congr {d : Doc} (hd : d.isPlain = true) (width width' ind : Nat) (mode mode' : Mode)
    (rest rest' : List Doc) (p : Page) :
    d.layOut width ind mode rest p = d.layOut width' ind mode' rest' p := by
  -- the second part of a document follows the first one, so what follows is not fixed
  induction d generalizing ind rest rest' p with
  | nil | text | styled | hardline => rfl
  | append l r ihl ihr =>
    obtain ⟨hl, hr⟩ := Bool.and_eq_true_iff.1 hd
    rw [layOut, layOut, ihl hl ind (r :: rest) (r :: rest') p]
    apply ihr hr
  | nest n d ih => exact ih hd ..
  -- these are the documents that look at the width, at the column or at the mode
  | align | group | flatAlt => cases hd

/-- If `d` has no optional breaks, it has the same pieces at all line widths. -/
theorem chunks_congr {d : Doc} (hd : d.isPlain = true) (width width' : Nat) :
    d.chunks width = d.chunks width' :=
  congrArg Page.finish (layOut_congr hd width width' 0 .broken .broken [] [] {})

variable {d separator : Doc} {ds : List Doc}

/-- `str` is a text, or nothing. -/
@[simp] theorem isPlain_str (s : String) : (str s).isPlain = true := by
  unfold str
  split <;> rfl

/-- `enclose` adds texts before and after `d`. -/
@[simp] theorem isPlain_enclose (before after : String) (d : Doc) :
    (enclose before after d).isPlain = d.isPlain := by
  simp [enclose, isPlain]

/-- `intersperse` adds copies of the `separator`. -/
theorem isPlain_intersperse (hseparator : separator.isPlain = true)
    (hds : ∀ d ∈ ds, d.isPlain = true) : (intersperse separator ds).isPlain = true := by
  induction ds with
  | nil => rfl
  | cons d rest ih =>
    obtain ⟨hd, hrest⟩ := List.forall_mem_cons.1 hds
    cases rest with
    | nil => exact hd
    | cons d' rest =>
      rw [intersperse, isPlain_cat, isPlain_cat, hd, hseparator, ih hrest]
      · rfl
      · exact List.cons_ne_nil _ _

end Doc

/-! ## Control sequences -/

/-- A text without its control sequences; `inside` says whether it starts inside of one. -/
def withoutControls (inside : Bool) : List Char → List Char
  | [] => []
  | c :: cs =>
    -- a sequence starts with an escape and ends with its first `m`
    if inside then withoutControls (decide (c ≠ 'm')) cs
    else if c = '\x1b' then withoutControls true cs
    else c :: withoutControls false cs

/-- Characters that start no control sequence stay. -/
theorem withoutControls_append {cs : List Char} (hcs : '\x1b' ∉ cs) (ds : List Char) :
    withoutControls false (cs ++ ds) = cs ++ withoutControls false ds := by
  induction cs with
  | nil => rfl
  | cons c cs ih =>
    simp only [List.mem_cons, not_or] at hcs
    rw [List.cons_append, withoutControls, if_neg Bool.false_ne_true, if_neg (Ne.symm hcs.1),
      ih hcs.2, List.cons_append]

/-- A control sequence ends with `m`. -/
theorem withoutControls_inside {parameter : List Char} (h : 'm' ∉ parameter) (ds : List Char) :
    withoutControls true (parameter ++ 'm' :: ds) = withoutControls false ds := by
  induction parameter with
  | nil => rfl
  | cons c parameter ih =>
    simp only [List.mem_cons, not_or] at h
    rw [List.cons_append, withoutControls, if_pos rfl, decide_eq_true (Ne.symm h.1), ih h.2]

/-- `control` leaves no trace. -/
theorem withoutControls_control {parameter : String} (h : 'm' ∉ parameter.toList)
    (ds : List Char) :
    withoutControls false ((control parameter).toList ++ ds) = withoutControls false ds := by
  have hsequence : (control parameter).toList ++ ds =
      '\x1b' :: '[' :: (parameter.toList ++ 'm' :: ds) := by
    simp [control]
  rw [hsequence]
  exact withoutControls_inside h ds

/-- The control sequences around the piece `chunk` leave no trace. -/
theorem withoutControls_chunk {chunk : Chunk} (h : '\x1b' ∉ chunk.text.toList) (ds : List Char) :
    withoutControls false (chunk.colored.toList ++ ds) =
      chunk.text.toList ++ withoutControls false ds := by
  obtain ⟨style, s⟩ := chunk
  cases style with
  | none => exact withoutControls_append h ds
  | some style =>
    have hcolor : 'm' ∉ style.color.parameter.toList := by cases style.color <;> decide
    have hbold (es : List Char) :
        withoutControls false ((if style.bold then control "1" else "").toList ++ es) =
          withoutControls false es := by
      split
      · exact withoutControls_control (by decide) es
      · rfl
    -- reset, weight and colour stand before the piece, and a reset behind it
    simp only [Chunk.colored, Style.sequence, String.toList_append, List.append_assoc]
    rw [reset, withoutControls_control (by decide), hbold, withoutControls_control hcolor,
      withoutControls_append h, withoutControls_control (by decide)]

/-- Without its control sequences, `colored` is the text of the pieces, if they have none of their
own. -/
theorem withoutControls_colored {chunks : List Chunk}
    (h : '\x1b' ∉ (plain chunks).toList) :
    withoutControls false (colored chunks).toList = (plain chunks).toList := by
  induction chunks with
  | nil => rfl
  | cons chunk rest ih =>
    have hplain : (plain (chunk :: rest)).toList = chunk.text.toList ++ (plain rest).toList := by
      simp [plain]
    have hcolored : (colored (chunk :: rest)).toList =
        chunk.colored.toList ++ (colored rest).toList := by
      simp [colored]
    rw [hplain, List.mem_append, not_or] at h
    rw [hplain, hcolored, withoutControls_chunk h.1, ih h.2]

/-- The text of `d` is the same for every line width. With highlighting it has the same pieces,
between control sequences. -/
structure Doc.FixedText (d : Doc) : Prop where
  /-- All line widths give the same text. -/
  width_free : ∀ width width' color, d.render width color = d.render width' color
  /-- Both texts are written from the same pieces. -/
  pieces : ∃ chunks : List Chunk, ∀ width,
    d.render width false = plain chunks ∧ d.render width true = colored chunks
  /-- Where the control sequences can be told from the text, taking them away gives the other
  text. -/
  uncolored : ∀ width width', '\x1b' ∉ (d.render width false).toList →
    withoutControls false (d.render width' true).toList = (d.render width false).toList

/-- A document without optional breaks has a fixed text. -/
theorem Doc.fixedText {d : Doc} (hd : d.isPlain = true) : d.FixedText where
  width_free width width' color := by rw [render, render, chunks_congr hd width width']
  pieces := by
    refine ⟨d.chunks 0, fun width => ?_⟩
    rw [chunks_congr hd 0 width]
    exact ⟨rfl, rfl⟩
  uncolored width width' hescape := by
    have htext : d.render width' true = colored (d.chunks width) := by
      rw [chunks_congr hd width width']
      rfl
    rw [htext]
    exact withoutControls_colored hescape

end TailLoop.Layout

namespace TailLoop.Script

open Layout

/-! ## Pieces of scripts -/

section Pieces

variable {d : Doc} {ds : List Doc}

/-- `commas` has commas and blanks between the parts. -/
theorem isPlain_commas (h : ∀ d ∈ ds, d.isPlain = true) : (commas ds).isPlain = true :=
  Doc.isPlain_intersperse rfl h

/-- A name of the module. -/
@[simp] theorem isPlain_identDoc (name : String) : (identDoc name).isPlain = true :=
  Doc.isPlain_str _

/-- A name from outside, which may be quoted. -/
@[simp] theorem isPlain_outerName (name : String) : (outerName name).isPlain = true := by
  unfold outerName
  split
  · exact Doc.isPlain_str name
  · rfl

/-- `operandDoc` adds parentheses at most. -/
@[simp] theorem isPlain_operandDoc (demanded : Nat) (e : Expr) (d : Doc) :
    (operandDoc demanded e d).isPlain = d.isPlain := by
  unfold operandDoc
  split
  · exact Doc.isPlain_enclose ..
  · rfl

/-- `guardedDoc` adds parentheses at most. -/
@[simp] theorem isPlain_guardedDoc (e : Expr) (d : Doc) :
    (guardedDoc e d).isPlain = d.isPlain := by
  unfold guardedDoc
  split
  · exact Doc.isPlain_enclose ..
  · rfl

/-- The parameters of a function. -/
theorem isPlain_paramsDoc (params : List String) : (paramsDoc params).isPlain = true := by
  unfold paramsDoc
  split
  · exact isPlain_identDoc _
  · rw [Doc.parens, Doc.isPlain_enclose]
    exact isPlain_commas (List.forall_mem_map.2 fun name _ => isPlain_identDoc name)

/-- `objectDoc` puts each of `ds` between commas. -/
theorem isPlain_objectDoc (h : ∀ d ∈ ds, d.isPlain = true) : (objectDoc ds).isPlain = true := by
  unfold objectDoc
  split
  · rfl
  · rw [Doc.isPlain_enclose]
    exact isPlain_commas h

/-- A property, behind a dot or in brackets. -/
theorem isPlain_propertyDoc (property : String) : (propertyDoc property).isPlain = true := by
  unfold propertyDoc
  split
  · rfl
  · exact Doc.isPlain_enclose ..

/-- `declarationDoc`: a word, a name and perhaps a value. -/
theorem isPlain_declarationDoc {value : Option Doc} (word name : String)
    (h : ∀ d ∈ value, d.isPlain = true) : (declarationDoc word name value).isPlain = true := by
  cases value with
  | none => simp [declarationDoc, keyword, Doc.space, Doc.isPlain]
  | some d => simp [declarationDoc, keyword, Doc.space, Doc.isPlain, h d rfl]

/-- `armDoc`: a condition with its block. -/
theorem isPlain_armDoc {test block : Doc} (htest : test.isPlain = true)
    (hblock : block.isPlain = true) : (armDoc test block).isPlain = true := by
  simp [armDoc, keyword, Doc.space, Doc.parens, Doc.isPlain, htest, hblock]

/-- `s` has no optional breaks, whether it is written as a statement or stands as the body of a
function. -/
structure StmtDoc.IsPlain (s : StmtDoc) : Prop where
  /-- The statement has none. -/
  full : s.full.isPlain = true
  /-- The expression that can stand for it has none. -/
  concise : ∀ d ∈ s.concise, d.isPlain = true

/-- `plainDoc` is no function body of its own. -/
theorem StmtDoc.IsPlain.of_full (h : d.isPlain = true) : (plainDoc d).IsPlain := ⟨h, nofun⟩

/-- `wordStatement`: a word and an expression. -/
theorem isPlain_wordStatement (word : String) (h : d.isPlain = true) :
    (wordStatement word d).isPlain = true := by
  simp [wordStatement, keyword, Doc.space, Doc.isPlain, h]

/-- `returnDoc` can stand as the body of a function, as its value. -/
theorem isPlain_returnDoc (value : Expr) (h : d.isPlain = true) : (returnDoc value d).IsPlain := by
  refine ⟨isPlain_wordStatement "return" h, ?_⟩
  rintro _ ⟨⟩
  rw [isPlain_guardedDoc, h]

variable {ss : List StmtDoc}

/-- `linesDoc`: statements, one to a line, with fixed breaks between them. -/
theorem isPlain_linesDoc (h : ∀ s ∈ ss, s.IsPlain) : (linesDoc ss).isPlain = true :=
  Doc.isPlain_intersperse rfl (List.forall_mem_map.2 fun s hs => (h s hs).full)

/-- `blockDoc`: statements in braces. -/
theorem isPlain_blockDoc (h : ∀ s ∈ ss, s.IsPlain) : (blockDoc ss).isPlain = true := by
  unfold blockDoc
  split
  · rfl
  · simp [Doc.isPlain, isPlain_linesDoc h]

/-- `bodyDoc`: the body of a function, as a block or as the expression that stands for it. -/
theorem isPlain_bodyDoc (h : ∀ s ∈ ss, s.IsPlain) : (bodyDoc ss).isPlain = true := by
  unfold bodyDoc
  split
  · exact (h _ (List.mem_singleton_self _)).concise _ rfl
  · exact isPlain_blockDoc h

end Pieces

/-! ## Expressions and statements -/

mutual

/-- No expression has optional breaks. The recursion follows `Expr`, through the statements of
functions. -/
theorem Expr.isPlain_doc : (e : Expr) → e.doc.isPlain = true
  | .ident name => isPlain_identDoc name
  | .int _ | .number _ | .text _ | .boolean _ | .undefined => rfl
  | .array items => by
    rw [Expr.doc, Doc.brackets, Doc.isPlain_enclose]
    exact isPlain_commas (isPlain_exprDocs items)
  | .object fields => isPlain_objectDoc (isPlain_fieldDocs fields)
  | .access e property => by
    simp [Expr.doc, e.isPlain_doc, isPlain_propertyDoc]
  | .index e position => by
    simp [Expr.doc, Doc.brackets, e.isPlain_doc, position.isPlain_doc]
  | .call callee args => by
    simp [Expr.doc, Doc.parens, callee.isPlain_doc, isPlain_commas (isPlain_exprDocs args)]
  | .new callee args => by
    simp [Expr.doc, keyword, Doc.space, Doc.parens, Doc.isPlain, callee.isPlain_doc,
      isPlain_commas (isPlain_exprDocs args)]
  | .arrow params body => by
    simp [Expr.doc, Doc.isPlain, isPlain_paramsDoc, isPlain_bodyDoc (isPlain_stmtDocs body)]
  | .unary _ operand => by simp [Expr.doc, Doc.isPlain, operand.isPlain_doc]
  | .binary _ left right => by
    simp [Expr.doc, Doc.isPlain, left.isPlain_doc, right.isPlain_doc]
  | .conditional test yes no => by
    simp [Expr.doc, Doc.isPlain, test.isPlain_doc, yes.isPlain_doc, no.isPlain_doc]

theorem isPlain_exprDocs : (es : List Expr) → ∀ d ∈ exprDocs es, d.isPlain = true
  | [] => by simp [exprDocs]
  | e :: rest => List.forall_mem_cons.2 ⟨e.isPlain_doc, isPlain_exprDocs rest⟩

theorem Field.isPlain_doc : (f : Field) → f.doc.isPlain = true
  | .field _ value => by simp [Field.doc, Doc.isPlain, value.isPlain_doc]
  | .spread value => by simp [Field.doc, Doc.isPlain, value.isPlain_doc]

theorem isPlain_fieldDocs : (fs : List Field) → ∀ d ∈ fieldDocs fs, d.isPlain = true
  | [] => by simp [fieldDocs]
  | f :: rest => List.forall_mem_cons.2 ⟨f.isPlain_doc, isPlain_fieldDocs rest⟩

/-- No statement has optional breaks. -/
theorem Stmt.isPlain_doc : (s : Stmt) → s.doc.IsPlain
  | .const name value => .of_full (isPlain_declarationDoc _ _ (by simpa using value.isPlain_doc))
  | .declare name (some value) =>
    .of_full (isPlain_declarationDoc _ _ (by simpa using value.isPlain_doc))
  | .declare name none => .of_full (isPlain_declarationDoc _ _ nofun)
  | .assign name value => .of_full (by simp [Doc.isPlain, value.isPlain_doc])
  | .expr value => .of_full (by simp [Doc.isPlain, value.isPlain_doc])
  | .chain arms => .of_full (Doc.isPlain_intersperse rfl (isPlain_armDocs arms))
  | .loop body => .of_full (by
      simp [keyword, Doc.space, Doc.parens, Doc.isPlain, isPlain_blockDoc (isPlain_stmtDocs body)])
  | .again => .of_full rfl
  | .ret value => isPlain_returnDoc value value.isPlain_doc
  | .retObject value => isPlain_returnDoc value value.isPlain_doc
  | .retUndefined => .of_full rfl
  | .throw value => .of_full (isPlain_wordStatement _ value.isPlain_doc)

theorem isPlain_stmtDocs : (ss : List Stmt) → ∀ s ∈ stmtDocs ss, s.IsPlain
  | [] => by simp [stmtDocs]
  | s :: rest => List.forall_mem_cons.2 ⟨s.isPlain_doc, isPlain_stmtDocs rest⟩

theorem isPlain_armDocs : (arms : List (Expr × List Stmt)) → ∀ d ∈ armDocs arms, d.isPlain = true
  | [] => by simp [armDocs]
  | (test, body) :: rest =>
    List.forall_mem_cons.2
      ⟨isPlain_armDoc test.isPlain_doc (isPlain_blockDoc (isPlain_stmtDocs body)),
        isPlain_armDocs rest⟩

end

/-! ## Modules -/

/-- The end of a line that names where something comes from. -/
theorem isPlain_fromDoc (path : String) : (fromDoc path).isPlain = true := rfl

/-- The line of the import `i`. -/
theorem isPlain_importDoc (i : Import) : i.doc.isPlain = true := by
  simp [Import.doc, keyword, Doc.isPlain, isPlain_fromDoc]

/-- `exportNameDoc`: a name, and perhaps the public one. -/
theorem isPlain_exportNameDoc (source : Option String) (name : String) (public? : Option String) :
    (exportNameDoc source name public?).isPlain = true := by
  -- names of other modules are quoted if need be, own ones are escaped
  have hinner : (if source.isSome then outerName name else identDoc name).isPlain = true := by
    split
    · exact isPlain_outerName name
    · exact isPlain_identDoc name
  unfold exportNameDoc
  cases publicName source name public? with
  | some p => simp [keyword, Doc.space, Doc.isPlain, hinner]
  | none => exact hinner

/-- The line of the list `e`. -/
theorem isPlain_exportDoc (e : ExportList) : e.doc.isPlain = true := by
  have hnames : (commas (e.names.map fun n => exportNameDoc e.source n.1 n.2)).isPlain = true :=
    isPlain_commas (List.forall_mem_map.2 fun n _ => isPlain_exportNameDoc e.source n.1 n.2)
  unfold ExportList.doc
  split <;> simp [keyword, Doc.space, Doc.braces, Doc.isPlain, isPlain_fromDoc, hnames]

/-- A module: imports, declarations and exports, each on lines of its own. -/
theorem isPlain_moduleDoc (m : Module) : m.doc.isPlain = true := by
  refine Doc.isPlain_intersperse rfl (List.forall_mem_append.2
    ⟨List.forall_mem_append.2 ⟨?_, ?_⟩, ?_⟩)
  · exact List.forall_mem_map.2 fun i _ => isPlain_importDoc i
  · exact List.forall_mem_map.2 fun s hs => (isPlain_stmtDocs m.declarations s hs).full
  · exact List.forall_mem_map.2 fun e _ => isPlain_exportDoc e

/-- The texts of modules, of lists of statements, of statements and of expressions do not depend on
the line width, and highlighting only puts control sequences around their pieces. -/
theorem script_texts_fixed :
    (∀ m : Module, m.doc.FixedText) ∧ (∀ body : List Stmt, (blockLines body).FixedText) ∧
      (∀ s : Stmt, s.doc.full.FixedText) ∧ ∀ e : Expr, e.doc.FixedText := by
  refine ⟨fun m => ?_, fun body => ?_, fun s => ?_, fun e => ?_⟩
  · exact Doc.fixedText (isPlain_moduleDoc m)
  · exact Doc.fixedText (isPlain_linesDoc (isPlain_stmtDocs body))
  · exact Doc.fixedText s.isPlain_doc.full
  · exact Doc.fixedText e.isPlain_doc

/-- A statement stays on its line however narrow the page is. -/
example :
    withoutControls false ((Stmt.ret (.ident "x")).doc.full.render 3 true).toList =
      "return x;".toList := by
  decide +kernel

end TailLoop.Script
