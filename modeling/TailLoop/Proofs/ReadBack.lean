import TailLoop.Proofs.ReadExprs

/-!
# Scripts read back from their texts

The text of a script is read as that script, in the form that `normal` gives, and as nothing else,
whatever the letters of the language beyond ASCII.

* `Expr.written`, `Stmt.written`, `spells_module`: scripts that are legible are read from their
  texts.
* `reads_back`: they are read as what `normal` says, and as nothing else.
-/

namespace TailLoop.Script

open Layout

/-- Only a `ret` or `retObject` has a document that can stand in place of a function body. -/
theorem exists_ret_of_concise {s : Stmt} {full d : Doc} (h : s.doc = ⟨full, some d⟩) :
    ∃ value, (s = .ret value ∨ s = .retObject value) ∧ d = guardedDoc value value.doc := by
  cases s with
  | ret value | retObject value =>
    simp only [Stmt.doc, returnDoc, StmtDoc.mk.injEq, Option.some.injEq] at h
    exact ⟨value, by simp, h.2.symm⟩
  | declare name value => cases value <;> simp [Stmt.doc, plainDoc] at h
  | _ => simp [Stmt.doc, plainDoc] at h

theorem Expr.exists_ident_of_isIdent (e : Expr) (h : e.isIdent = true) :
    ∃ name, e = .ident name := by
  cases e with
  | ident name => exact ⟨name, rfl⟩
  | _ => cases h

section Texts

variable [Letters]

/-! ## Statements -/

/-- `blockDoc` spells a block if every `s` of `ss` is spelled by its document. -/
theorem spells_block {ss : List Stmt}
    (h : ∀ s ∈ ss, Spells .stmt .closed s.doc.full s.normal) :
    Spells .block .closed (blockDoc (stmtDocs ss)) (stmtsNormal ss) := by
  rw [stmtDocs_eq_map, stmtsNormal_eq_map]
  obtain ⟨ts, hderives, hlines⟩ := spells_lines .stmt (StmtDoc.full ∘ Stmt.doc) Stmt.normal ss h
  have hclose : Lexes .closed (.text "\x7d") [.sign "\x7d"] := .sign [] rfl rfl (by decide)
  refine ⟨_, ?_, hderives.block⟩
  cases ss with
  | nil =>
    cases hderives with
    | nil => exact Lexes.sign [.sign "\x7b"] rfl rfl (by decide)
  | cons s ss =>
    have hopen : Lexes .closed (.text "\x7b") [.sign "\x7b"] := .sign [] rfl rfl (by decide)
    have hinner : Lexes .closed (linesDoc ((s :: ss).map Stmt.doc)) ts := by
      simpa [linesDoc] using hlines [] [] .nil
    have hindented := (Lexes.hardline.cat_closed hinner).indent (n := 2)
    exact hopen.cat_closed (hindented.cat_closed (Lexes.hardline.cat_closed hclose))

theorem lexes_semicolon : Lexes .closed (.text ";") [.sign ";"] := .sign [] rfl rfl (by decide)

/-- `declarationDoc` without a value is `word`, the escaped `name` and a semicolon. -/
theorem lexes_declarationDoc {word name : String} (hword : isName word = true)
    (hname : isNameHere name = true) :
    Lexes .closed (declarationDoc word name none)
      [.word word, .word (escapeIdent name), .sign ";"] := by
  have hhead := (lexes_keyword hword).cat_text (lexes_space.cat_closed (lexes_identDoc hname)) rfl
  exact hhead.cat_break lexes_semicolon rfl

/-- What comes after a name that gets the `value`: an equals sign, the tokens of `value` and a
semicolon. -/
theorem lexes_value {value : Doc} {ts : List Token} (h : Lexes .numeral value ts) :
    Lexes .closed (.text " = " ++ (value ++ .text ";")) (.sign "=" :: (ts ++ [.sign ";"])) := by
  have hequals : Lexes .closed (.text " = ") [.sign "="] := .blank rfl
  exact hequals.cat_closed (h.cat_break lexes_semicolon rfl)

/-- `declarationDoc` with a `value` is `word`, the escaped `name` and what `lexes_value` gives. -/
theorem lexes_declarationDoc_some {word name : String} {value : Doc} {ts : List Token}
    (hword : isName word = true) (hname : isNameHere name = true)
    (h : Lexes .numeral value ts) :
    Lexes .closed (declarationDoc word name (some value))
      (.word word :: .word (escapeIdent name) :: .sign "=" :: (ts ++ [.sign ";"])) := by
  have hhead := (lexes_keyword hword).cat_text (lexes_space.cat_closed (lexes_identDoc hname)) rfl
  exact hhead.cat_text (lexes_value h) rfl

/-- `wordStatement` is `word`, the tokens of `value` and a semicolon. -/
theorem lexes_wordStatement {word : String} {value : Doc} {ts : List Token}
    (hword : isName word = true) (h : Lexes .numeral value ts) :
    Lexes .closed (wordStatement word value) (.word word :: (ts ++ [.sign ";"])) :=
  (lexes_keyword hword).cat_text
    (lexes_space.cat_closed (h.cat_break lexes_semicolon rfl)) rfl

/-- `guardedDoc e` is read as `e` and does not start with a brace, if `e` is guarded. -/
theorem Expr.Written.guarded {e : Expr} (h : e.Written) (hguarded : e.isGuarded = true) :
    ∃ ts, Lexes .numeral (guardedDoc e e.doc) ts ∧ Derives .assignment ts e.normal ∧
      ts.head? ≠ some (.sign "\x7b") := by
  obtain ⟨ts, hlex, hderives, hbrace⟩ := h.operand_numeral 0
  unfold guardedDoc
  split
  · have hparens : DerivesAt 0 _ e.normal := .ofPrimary hderives.assignment.parens
    exact ⟨_, hlex.parens.weaken, hparens.assignment, by simp⟩
  next hobject =>
    have hstart : e.startsWithObject = false := by simpa [Expr.isGuarded, hobject] using hguarded
    exact ⟨ts, hlex, hderives.assignment, hbrace (by simp [hstart])⟩

/-- `s` is read from its text, and so is what it returns. -/
structure Stmt.Written (s : Stmt) : Prop where
  spells : Spells .stmt .closed s.doc.full s.normal
  returned : ∀ value, s = .ret value ∨ s = .retObject value → value.Written

/-- A statement without a `concise` document is `Written` if it is spelled by its full one. -/
theorem Stmt.Written.ofPlain {s : Stmt} (h : Spells .stmt .closed s.doc.full s.normal)
    (hplain : s.doc.concise = none) : s.Written := by
  refine ⟨h, fun value hret => ?_⟩
  obtain rfl | rfl := hret <;> cases hplain

section Statements

variable {name : String} {value : Expr}

theorem written_const (hname : isNameHere name = true) (h : value.Written) :
    (Stmt.const name value).Written := by
  obtain ⟨ts, hlex, hderives⟩ := h.spells
  exact .ofPlain ⟨_, lexes_declarationDoc_some rfl hname hlex, (derives_ident name).const hderives⟩
    rfl

theorem written_declare (hname : isNameHere name = true) : (Stmt.declare name none).Written :=
  .ofPlain ⟨_, lexes_declarationDoc rfl hname, (derives_ident name).declare⟩ rfl

theorem written_declare_some (hname : isNameHere name = true) (h : value.Written) :
    (Stmt.declare name (some value)).Written := by
  obtain ⟨ts, hlex, hderives⟩ := h.spells
  exact .ofPlain
    ⟨_, lexes_declarationDoc_some rfl hname hlex, (derives_ident name).declareAs hderives⟩ rfl

theorem written_assign (hname : isNameHere name = true) (h : value.Written) :
    (Stmt.assign name value).Written := by
  obtain ⟨ts, hlex, hderives⟩ := h.spells
  exact .ofPlain ⟨_, (lexes_identDoc hname).cat_text (lexes_value hlex) rfl,
    (derives_ident name).assign hderives⟩ rfl

theorem written_expr (h : value.Written) (hguarded : value.isGuarded = true) :
    (Stmt.expr value).Written := by
  obtain ⟨ts, hlex, hderives, hbrace⟩ := h.guarded hguarded
  exact .ofPlain ⟨_, hlex.cat_break lexes_semicolon rfl, hderives.expr hbrace⟩ rfl

theorem written_ret (h : value.Written) : (Stmt.ret value).Written := by
  obtain ⟨ts, hlex, hderives⟩ := h.spells
  refine ⟨⟨_, lexes_wordStatement rfl hlex, hderives.ret⟩, fun value' hret => ?_⟩
  obtain hret | hret := hret <;> cases hret
  exact h

theorem written_retObject (h : value.Written) : (Stmt.retObject value).Written := by
  obtain ⟨ts, hlex, hderives⟩ := h.spells
  refine ⟨⟨_, lexes_wordStatement rfl hlex, hderives.ret⟩, fun value' hret => ?_⟩
  obtain hret | hret := hret <;> cases hret
  exact h

theorem written_throw (h : value.Written) : (Stmt.throw value).Written := by
  obtain ⟨ts, hlex, hderives⟩ := h.spells
  exact .ofPlain ⟨_, lexes_wordStatement rfl hlex, hderives.throw⟩ rfl

theorem written_retUndefined : Stmt.retUndefined.Written :=
  .ofPlain ⟨_, (lexes_keyword rfl).cat_break lexes_semicolon rfl, .retUndefined⟩ rfl

theorem written_again : Stmt.again.Written :=
  .ofPlain ⟨_, (lexes_keyword rfl).cat_break lexes_semicolon rfl, .again⟩ rfl

theorem written_loop {body : List Stmt} (h : ∀ s ∈ body, s.Written) : (Stmt.loop body).Written := by
  obtain ⟨ts, hlex, hderives⟩ := spells_block fun s hs => (h s hs).spells
  have htest := (lexes_keyword (w := "true") rfl).parens
  have hlexes := (lexes_keyword (w := "while") rfl).cat_text (lexes_space.cat_closed
    (htest.cat_closed (lexes_space.cat_closed hlex))) rfl
  exact .ofPlain ⟨_, hlexes, hderives.loop⟩ rfl

end Statements

/-- `armDoc` is `if`, the tokens of `test` in parentheses and those of `block`. -/
theorem lexes_armDoc {test block : Doc} {ts us : List Token} (ht : Lexes .numeral test ts)
    (hb : Lexes .closed block us) : Lexes .closed (armDoc test block)
      (.word "if" :: .sign "(" :: (ts ++ .sign ")" :: us)) := by
  have hlexes := (lexes_keyword (w := "if") rfl).cat_text (lexes_space.cat_closed
    (ht.parens.cat_closed (lexes_space.cat_closed hb))) rfl
  simpa [armDoc, Doc.space] using hlexes

/-- The documents of `arms`, with `else` between them, spell the arms of a chain. -/
theorem spells_arms {arms : List (Expr × List Stmt)} (hne : arms ≠ [])
    (h : ∀ a ∈ arms, a.1.Written ∧ ∀ s ∈ a.2, s.Written) :
    Spells .arms .closed (.intersperse (Doc.space ++ (keyword "else" ++ Doc.space)) (armDocs arms))
      (armsNormal arms) := by
  induction arms with
  | nil => exact absurd rfl hne
  | cons arm rest ih =>
    obtain ⟨htest, hblock⟩ := h arm (List.mem_cons_self ..)
    obtain ⟨ts, hlex, hderives⟩ := htest.spells
    obtain ⟨us, hlex', hderives'⟩ := spells_block fun s hs => (hblock s hs).spells
    have harm := lexes_armDoc hlex hlex'
    cases rest with
    | nil => exact ⟨_, harm, hderives.lastArm hderives'⟩
    | cons next rest =>
      obtain ⟨vs, hmore, hderives''⟩ := ih (by simp) fun a ha => h a (List.mem_cons_of_mem _ ha)
      have helse := lexes_space.cat_closed
        ((lexes_keyword (w := "else") rfl).cat_break lexes_space rfl)
      refine ⟨_, harm.cat_closed (helse.cat_closed hmore), ?_⟩
      simpa [armsNormal] using hderives.arm hderives' hderives''

theorem written_chain {arms : List (Expr × List Stmt)} (hne : arms ≠ [])
    (h : ∀ a ∈ arms, a.1.Written ∧ ∀ s ∈ a.2, s.Written) : (Stmt.chain arms).Written := by
  obtain ⟨ts, hlex, hderives⟩ := spells_arms hne h
  exact .ofPlain ⟨ts, hlex, hderives.chain⟩ rfl

/-- `bodyDoc` spells the body of a function, in braces or as an expression. -/
theorem spells_body {body : List Stmt} (h : ∀ s ∈ body, s.Written)
    (hguarded : isGuardedBody body = true) :
    Spells .body .numeral (bodyDoc (stmtDocs body)) (stmtsNormal body) := by
  unfold bodyDoc
  split
  next full d hdoc =>
    obtain ⟨s, rfl, hs⟩ : ∃ s, body = [s] ∧ s.doc = ⟨full, some d⟩ := by
      rw [stmtDocs_eq_map] at hdoc
      simpa using List.map_eq_singleton_iff.1 hdoc
    obtain ⟨value, hret, rfl⟩ := exists_ret_of_concise hs
    have hvalue : value.Written := (h s (List.mem_cons_self ..)).returned value hret
    obtain ⟨ts, hlex, hderives, hbrace⟩ := hvalue.guarded
      (by obtain rfl | rfl := hret <;> exact hguarded)
    refine ⟨ts, hlex, ?_⟩
    obtain rfl | rfl := hret <;> exact hderives.concise hbrace
  · obtain ⟨ts, hlex, hderives⟩ := spells_block fun s hs => (h s hs).spells
    exact ⟨ts, hlex.weaken, hderives.body⟩

/-! ## Whole scripts -/

mutual

/-- A legible `e` is `Written`. -/
theorem Expr.written : (e : Expr) → e.isLegible = true → e.Written
  | .ident _, h => written_ident h
  | .int i, _ => written_int i
  | .number _, h => by cases h
  | .text s, _ => written_text s
  | .boolean b, _ => written_boolean b
  | .undefined, _ => written_undefined
  | .array items, h => written_array (exprsWritten items h)
  | .object fields, h => written_object (fieldsWritten fields h)
  | .access e p, h => by
    simp only [Expr.isLegible, Bool.and_eq_true, Bool.not_eq_true'] at h
    exact written_access (e.written h.1.1) h.1.2 h.2
  | .index e i, h => by
    simp only [Expr.isLegible, Bool.and_eq_true] at h
    exact written_index (e.written h.1) (i.written h.2)
  | .call f args, h => by
    simp only [Expr.isLegible, Bool.and_eq_true] at h
    exact written_call (f.written h.1) (exprsWritten args h.2)
  | .new callee args, h => by
    simp only [Expr.isLegible, Bool.and_eq_true] at h
    obtain ⟨name, rfl⟩ := callee.exists_ident_of_isIdent h.1.2
    exact written_new h.1.1 (exprsWritten args h.2)
  | .arrow params body, h => by
    simp only [Expr.isLegible, Bool.and_eq_true, List.all_eq_true] at h
    exact written_arrow h.1.1 (spells_body (stmtsWritten body h.1.2) h.2)
  | .unary op e, h => written_unary (e.written h) (exists_firstChar_operandDoc e h) op
  | .binary op l r, h => by
    simp only [Expr.isLegible, Bool.and_eq_true] at h
    exact written_binary (l.written h.1) (r.written h.2) op
  | .conditional t y n, h => by
    simp only [Expr.isLegible, Bool.and_eq_true] at h
    exact written_conditional (t.written h.1.1) (y.written h.1.2) (n.written h.2)

theorem exprsWritten : (es : List Expr) → exprsLegible es = true → ∀ e ∈ es, e.Written
  | [], _ => by simp
  | e :: es, h => by
    simp only [exprsLegible, Bool.and_eq_true] at h
    exact List.forall_mem_cons.2 ⟨e.written h.1, exprsWritten es h.2⟩

theorem fieldsWritten : (fs : List Field) → fieldsLegible fs = true →
    ∀ f ∈ fs, Spells .field .numeral f.doc f.normal
  | [], _ => by simp
  | .field key e :: fs, h => by
    simp only [fieldsLegible, Field.isLegible, Bool.and_eq_true] at h
    exact List.forall_mem_cons.2 ⟨spells_field h.1.1 (e.written h.1.2), fieldsWritten fs h.2⟩
  | .spread e :: fs, h => by
    simp only [fieldsLegible, Field.isLegible, Bool.and_eq_true] at h
    exact List.forall_mem_cons.2 ⟨spells_spread (e.written h.1), fieldsWritten fs h.2⟩

/-- A legible `s` is `Written`. -/
theorem Stmt.written : (s : Stmt) → s.isLegible = true → s.Written
  | .const name value, h => by
    simp only [Stmt.isLegible, Bool.and_eq_true] at h
    exact written_const h.1 (value.written h.2)
  | .declare name none, h => written_declare h
  | .declare name (some value), h => by
    simp only [Stmt.isLegible, Bool.and_eq_true] at h
    exact written_declare_some h.1 (value.written h.2)
  | .assign name value, h => by
    simp only [Stmt.isLegible, Bool.and_eq_true] at h
    exact written_assign h.1 (value.written h.2)
  | .expr value, h => by
    simp only [Stmt.isLegible, Bool.and_eq_true] at h
    exact written_expr (value.written h.1) h.2
  | .chain arms, h => by
    simp only [Stmt.isLegible, Bool.and_eq_true, Bool.not_eq_true', List.isEmpty_eq_false_iff] at h
    exact written_chain h.1 (armsWritten arms h.2)
  | .loop body, h => written_loop (stmtsWritten body h)
  | .again, _ => written_again
  | .ret value, h => written_ret (value.written h)
  | .retObject value, h => written_retObject (value.written h)
  | .retUndefined, _ => written_retUndefined
  | .throw value, h => written_throw (value.written h)

theorem stmtsWritten : (ss : List Stmt) → stmtsLegible ss = true → ∀ s ∈ ss, s.Written
  | [], _ => by simp
  | s :: ss, h => by
    simp only [stmtsLegible, Bool.and_eq_true] at h
    exact List.forall_mem_cons.2 ⟨s.written h.1, stmtsWritten ss h.2⟩

theorem armsWritten : (arms : List (Expr × List Stmt)) → armsLegible arms = true →
    ∀ a ∈ arms, a.1.Written ∧ ∀ s ∈ a.2, s.Written
  | [], _ => by simp
  | (test, body) :: arms, h => by
    simp only [armsLegible, Bool.and_eq_true] at h
    exact List.forall_mem_cons.2
      ⟨⟨test.written h.1.1, stmtsWritten body h.1.2⟩, armsWritten arms h.2⟩

end

/-! ## Modules -/

/-- `fromDoc` is `from`, the text `path` and a semicolon. -/
theorem lexes_fromDoc (path : String) :
    Lexes .closed (fromDoc path) [.word "from", .text path, .sign ";"] :=
  lexes_space.cat_closed ((lexes_keyword rfl).cat_text
    (lexes_space.cat_closed ((lexes_textDoc path).cat_closed lexes_semicolon)) rfl)

theorem spells_import {i : Import} (h : isNameHere i.name = true) :
    Spells .importLine .closed i.doc i.normal := by
  have has : Lexes .closed (.text " * as ") [.sign "*", .word "as"] := .blank rfl
  have hlexes := (lexes_keyword (w := "import") rfl).cat_text
    (has.cat_closed ((lexes_identDoc h).cat_text (lexes_fromDoc i.path) rfl)) rfl
  exact ⟨_, hlexes, (derives_ident i.name).importLine⟩

/-- `exportNameDoc` spells a published name. -/
theorem spells_exportName {source : Option String} {name : String} {public? : Option String}
    (h : isExportLegible source name public? = true) :
    Spells .exportName .numeral (exportNameDoc source name public?)
      (if source.isSome then name else escapeIdent name, publicName source name public?) := by
  obtain ⟨hname, houtside⟩ := Bool.and_eq_true_iff.1 h
  have hinner : Spells .label .word (if source.isSome then outerName name else identDoc name)
      (if source.isSome then name else escapeIdent name) := by
    split
    next hsource => exact spells_outerName (by rwa [if_pos hsource] at hname)
    next hnone =>
      rw [if_neg hnone] at hname
      exact ⟨_, lexes_identDoc hname, .labelWord⟩
  obtain ⟨ts, hlex, hderives⟩ := hinner
  unfold exportNameDoc
  cases hpublic : publicName source name public? with
  | none => exact ⟨ts, hlex.toNumeral, hderives.exportName⟩
  | some p =>
    rw [hpublic] at houtside
    obtain ⟨us, hlex', hderives'⟩ := spells_outerName houtside
    have hpublic := lexes_space.cat_closed ((lexes_keyword (w := "as") rfl).cat_text
      (lexes_space.cat_closed hlex') rfl)
    exact ⟨_, (hlex.cat_text hpublic rfl).toNumeral, hderives.exportAs hderives'⟩

theorem spells_export {e : ExportList} (h : e.isLegible = true) :
    Spells .exportLine .closed e.doc e.normal := by
  obtain ⟨ts, hlex, hderives⟩ := spells_commas .exportName (fun n => exportNameDoc e.source n.1 n.2)
    (fun n => (if e.source.isSome then n.1 else escapeIdent n.1, publicName e.source n.1 n.2))
    e.names fun n hn => spells_exportName (List.all_eq_true.1 h n hn)
  have hhead := (lexes_keyword (w := "export") rfl).cat_text
    (lexes_space.cat_closed hlex.braces) rfl
  unfold ExportList.doc ExportList.normal
  cases hsource : e.source with
  | none =>
    rw [hsource] at hhead hderives
    refine ⟨_, hhead.cat_closed lexes_semicolon, ?_⟩
    simpa using hderives.exportLine
  | some path =>
    rw [hsource] at hhead hderives
    refine ⟨_, hhead.cat_closed (lexes_fromDoc path), ?_⟩
    simpa using hderives.exportFrom

/-- The document of a legible `m` spells `m.normal`. -/
theorem spells_module {m : Module} (h : m.isLegible = true) :
    Spells .module .closed m.doc m.normal := by
  simp only [Module.isLegible, Bool.and_eq_true, List.all_eq_true] at h
  obtain ⟨⟨himports, hdeclarations⟩, hexports⟩ := h
  obtain ⟨ts, hderives, hlines⟩ := spells_lines .importLine Import.doc Import.normal m.imports
    fun i hi => spells_import (himports i hi)
  obtain ⟨us, hderives', hlines'⟩ := spells_lines .stmt (StmtDoc.full ∘ Stmt.doc) Stmt.normal
    m.declarations fun s hs => (stmtsWritten m.declarations hdeclarations s hs).spells
  obtain ⟨vs, hderives'', hlines''⟩ := spells_lines .exportLine ExportList.doc ExportList.normal
    m.exports fun e he => spells_export (hexports e he)
  have hlex := hlines _ _ (hlines' _ _ (hlines'' [] [] .nil))
  rw [← stmtsNormal_eq_map] at hderives'
  refine ⟨ts ++ (us ++ vs), ?_, hderives.module hderives' hderives''⟩
  simpa [Module.doc, stmtDocs_eq_map] using hlex

/-! ## Reading back -/

/-- A document that spells `tree` is read as `tree` only. -/
theorem Spells.reads_iff {c : Category} {edge : Edge} {d : Doc} {tree : c.Tree}
    (h : Spells c edge d tree) (hc : c.isRegular = true) (width : Nat) (tree' : c.Tree) :
    Reads c (d.render width false) tree' ↔ tree' = tree := by
  obtain ⟨ts, hlex, hderives⟩ := h
  have hlexed := hlex.lex_render width
  constructor
  · rintro ⟨us, hus, hderives'⟩
    obtain rfl : us = ts := Option.some.inj (hus.symm.trans hlexed)
    exact hderives'.unique hderives hc
  · rintro rfl
    exact ⟨ts, hlexed, hderives⟩

/-- The text of a legible expression, statement or module is read as what `normal` says, and as
nothing else, whatever the line width. -/
theorem reads_back (width : Nat) :
    (∀ e : Expr, e.isLegible = true →
      ∀ e', Reads .assignment (e.doc.render width false) e' ↔ e' = e.normal) ∧
    (∀ s : Stmt, s.isLegible = true →
      ∀ s', Reads .stmt (s.doc.full.render width false) s' ↔ s' = s.normal) ∧
    (∀ m : Module, m.isLegible = true →
      ∀ m', Reads .module (m.doc.render width false) m' ↔ m' = m.normal) :=
  ⟨fun e he => (e.written he).spells.reads_iff rfl width,
    fun s hs => (s.written hs).spells.reads_iff rfl width,
    fun _ hm => (spells_module hm).reads_iff rfl width⟩

end Texts

/-- A module whose text needs parentheses, escapes and a public name. -/
def sampleModule : Module where
  imports := [⟨"class", "./a\"b.js"⟩]
  declarations := [
    .const "f\x27" (.arrow ["x"] [.retObject (.object [
      .field "a b" (.unary .negate (.int 1)),
      .spread (.conditional (.binary .or (.ident "x") (.binary .or (.ident "y") (.int (-1))))
        (.access (.object []) "p") (.arrow [] [.ret (.object [])]))])]),
    .chain [(.ident "f\x27", [.throw (.new (.ident "Error") [.text "\n"])])]]
  exports := [⟨[("f\x27", none), ("class", some "new")], none⟩]

theorem reads_back_sampleModule :
    letI := Letters.ascii
    sampleModule.isLegible = true ∧
      ∀ m', Reads .module (sampleModule.doc.render 80 false) m' ↔ m' = sampleModule.normal :=
  letI := Letters.ascii
  have hlegible : sampleModule.isLegible = true := by decide
  ⟨hlegible, (reads_back 80).2.2 sampleModule hlegible⟩

/-- A name that is escaped here is not read back as published without a public name, and a property
that is no identifier is not read back as a property. One that the printer takes for an identifier,
although it is none, cannot be read at all. -/
theorem not_read_back_unchanged :
    letI := Letters.ascii
    (∀ m', Reads .module
        ((⟨[], [], [⟨[("class", none)], none⟩]⟩ : Module).doc.render 80 false) m' →
      ∀ name, m'.exports ≠ [⟨[(name, none)], none⟩]) ∧
    (∀ e', Reads .assignment ((Expr.access (.ident "x") "a b").doc.render 80 false) e' →
      ∀ e p, e' ≠ .access e p) ∧
    ∀ e', ¬ Reads .assignment ((Expr.access (.ident "r") "x²").doc.render 80 false) e' := by
  let _ := Letters.ascii
  refine ⟨fun m' hreads name => ?_, fun e' hreads e p => ?_, fun e' hreads => ?_⟩
  · have hmodule := spells_module (m := ⟨[], [], [⟨[("class", none)], none⟩]⟩) (by decide)
    rw [(hmodule.reads_iff rfl 80 m').1 hreads]
    intro heq
    cases heq
  · have hexpr := ((Expr.access (.ident "x") "a b").written (by decide)).spells
    have hnormal : (Expr.access (.ident "x") "a b").normal =
        .index (.ident "x") (.text "a b") := rfl
    rw [(hexpr.reads_iff rfl 80 e').1 hreads, hnormal]
    intro heq
    cases heq
  · obtain ⟨ts, hlex, -⟩ := hreads
    have hbroken : lex ((Expr.access (.ident "r") "x²").doc.render 80 false) = none := by decide
    rw [hbroken] at hlex
    cases hlex

end TailLoop.Script
