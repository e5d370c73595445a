import TailLoop.Proofs.LineWidths
import TailLoop.Proofs.ReadExprs
import TailLoop.Proofs.RuleLowering

/-!
# Literals that stand first

A brace at the start of a function body or of a statement starts a block, and a point behind an
integer is a part of the number. An object literal that is the whole body gets parentheses, one that
a larger expression starts with does not. So scripts are read as they are meant where no object
literal stands first in a larger expression and no property of an integer is read, and the lowering
writes such scripts for terms of which the same is true.

* `head?_guardedDoc_iff`: which texts start with a brace.
* `Term.keepsFront`: whether a node of a term puts no such literal first.
* `guarded_module`: the scripts of units whose terms put none first.
-/

namespace TailLoop

namespace Decimal

/-! ## Numbers -/

/-- No brace is among the digits of `n`. -/
theorem brace_not_mem_toDigits (n : Nat) : '\x7b' ∉ Nat.toDigits 10 n :=
  fun h => absurd (Nat.isDigit_of_mem_toDigits (by decide) (by decide) h) (by decide)

/-- No brace is in `intText`. -/
theorem brace_not_mem_intText (i : Int) : '\x7b' ∉ (intText i).toList := by
  unfold intText
  split <;> simp [digitsText, brace_not_mem_toDigits]

/-- No brace is in the text of a positive decimal `d`. -/
theorem Numeral.brace_not_mem_text (d : Numeral) : '\x7b' ∉ (d.text literal).toList := by
  have hdigits := brace_not_mem_toDigits d.digits
  have htake (k : Nat) := mt (List.mem_of_mem_take (i := k)) hdigits
  have hdrop (k : Nat) := mt (List.mem_of_mem_drop (i := k)) hdigits
  unfold text
  split
  · simp only [positional]
    split
    · simp [zeros, hdigits]
    · split <;> simp [zeros, hdigits, htake, hdrop]
  · simp only [scientific, literal, String.toList_append, List.mem_append, String.toList_ofList,
      htake, digitsText, brace_not_mem_toDigits, or_false, false_or]
    split <;> split <;> simp [mt List.mem_of_mem_tail hdigits]

/-- No brace is in `literalText`, that of what is not finite included. -/
theorem brace_not_mem_literalText (x : Float) :
    '\x7b' ∉ (literalText "Infinity" x).toList := by
  unfold literalText
  split
  · decide
  split
  · split <;> decide
  · simp only [Style.text]
    split <;> split <;> simp [Numeral.brace_not_mem_text]

/-- `intText` has a digit. -/
theorem intText_ne_empty (i : Int) : intText i ≠ "" := by
  unfold intText
  split
  · simp
  · exact fun h => Nat.toDigits_ne_nil (String.ofList_eq_empty_iff.1 h)

/-- The text of `d` has a point or an exponent. -/
theorem Numeral.text_ne_empty (d : Numeral) : d.text literal ≠ "" := by
  unfold text
  split
  · simp only [positional]
    split
    · simp
    · split <;> simp
  · simp [scientific]

/-- `literalText` is never empty. -/
theorem literalText_ne_empty (x : Float) : literalText "Infinity" x ≠ "" := by
  unfold literalText
  split
  · decide
  split
  · split <;> decide
  · simp only [Style.text]
    split <;> split <;> simp [Numeral.text_ne_empty]

end Decimal

namespace Script

open Layout

/-! ## Texts that start with a brace -/

/-- The name with which the text of an expression starts, if it does. -/
def Expr.firstName? : Expr → Option String
  | .ident x | .arrow [x] _ => some x
  | .access e _ | .index e _ | .call e _ => if e.level < memberLevel then none else e.firstName?
  | .binary _ e _ => if e.level < unaryLevel then none else e.firstName?
  | .conditional e _ _ => if e.level ≤ conditionalLevel then none else e.firstName?
  | _ => none

/-- A document starts with a brace exactly if `brace` says so. -/
def StartsAs (d : Doc) (brace : Bool) : Prop :=
  ∃ c, d.firstChar = some c ∧ (c = '\x7b' ↔ brace = true)

/-- What stands first decides. -/
theorem StartsAs.cat {d : Doc} {brace : Bool} (h : StartsAs d brace) (d' : Doc) :
    StartsAs (d ++ d') brace := by
  obtain ⟨c, hc, hbrace⟩ := h
  exact ⟨c, by simp [hc], hbrace⟩

/-- The first character of `d` is known, and is no brace. -/
theorem StartsAs.of_ne {d : Doc} {c : Char} (h : d.firstChar = some c) (hc : c ≠ '\x7b') :
    StartsAs d false :=
  ⟨c, h, by simpa using hc⟩

/-- A highlighted text `s` without braces. -/
theorem startsAs_styled {style : Style} {s : String} (hne : s ≠ "") (h : '\x7b' ∉ s.toList) :
    StartsAs (.styled style s) false := by
  obtain ⟨c, cs, hcs⟩ := List.exists_cons_of_ne_nil (mt String.toList_eq_nil_iff.1 hne)
  refine .of_ne (c := c) (by simp [Doc.firstChar, hcs]) ?_
  rintro rfl
  exact h (hcs ▸ List.mem_cons_self ..)

theorem startsAs_enclose {before : String} {c : Char} (h : before.toList.head? = some c)
    (hc : c ≠ '\x7b') (after : String) (d : Doc) : StartsAs (.enclose before after d) false :=
  .of_ne (firstChar_enclose h) hc

/-- An operand starts as `e` does, unless it is in parentheses. -/
theorem startsAs_operandDoc {e : Expr} {demanded : Nat}
    (h : ¬ e.level < demanded → StartsAs e.doc e.startsWithObject) :
    StartsAs (operandDoc demanded e e.doc) (decide (demanded ≤ e.level) && e.startsWithObject) := by
  unfold operandDoc
  by_cases hlt : e.level < demanded
  · rw [if_pos hlt, decide_eq_false (by omega)]
    exact startsAs_enclose rfl (by decide) ..
  · rw [if_neg hlt, decide_eq_true (by omega)]
    exact h hlt

theorem startsAs_identDoc [Letters] {x : String} (h : isNameHere x = true) :
    StartsAs (identDoc x) false := by
  obtain ⟨c, hc, hstart⟩ := exists_firstChar_identDoc h
  refine .of_ne hc ?_
  rintro rfl
  cases hstart

/-- The text of `e` starts with a brace exactly if an object literal stands first. -/
theorem Expr.startsAs_doc [Letters] (e : Expr) (h : ∀ x ∈ e.firstName?, isNameHere x = true) :
    StartsAs e.doc e.startsWithObject := by
  match e with
  | .ident x => exact startsAs_identDoc (h x rfl)
  | .arrow [x] _ => exact (startsAs_identDoc (h x rfl)).cat _
  | .arrow [] _ | .arrow (_ :: _ :: _) _ =>
    exact (startsAs_enclose (c := '(') rfl (by decide) ..).cat _
  | .int i => exact startsAs_styled (Decimal.intText_ne_empty _) (Decimal.brace_not_mem_intText _)
  | .number x =>
    exact startsAs_styled (Decimal.literalText_ne_empty x) (Decimal.brace_not_mem_literalText x)
  | .text s =>
    exact .of_ne (c := '"') (by simp [Expr.doc, textDoc, Doc.firstChar, Text.quote]) (by decide)
  | .boolean true => exact .of_ne (c := 't') rfl (by decide)
  | .boolean false => exact .of_ne (c := 'f') rfl (by decide)
  | .undefined => exact .of_ne (c := 'u') rfl (by decide)
  | .array _ => exact startsAs_enclose (c := '[') rfl (by decide) ..
  | .object [] => exact ⟨'\x7b', rfl, by simp [startsWithObject]⟩
  | .object (_ :: _) => exact ⟨'\x7b', firstChar_enclose rfl, by simp [startsWithObject]⟩
  | .new .. => exact StartsAs.cat (.of_ne (c := 'n') rfl (by decide)) _
  | .unary op _ =>
    refine StartsAs.cat ?_ _
    cases op
    · exact .of_ne (c := '!') rfl (by decide)
    · exact .of_ne (c := '-') rfl (by decide)
    · exact .of_ne (c := '~') rfl (by decide)
  | .access e _ | .index e _ | .call e _ | .binary _ e _ =>
    exact (startsAs_operandDoc fun hlt => e.startsAs_doc (by simpa [firstName?, hlt] using h)).cat _
  | .conditional e _ _ =>
    refine (startsAs_operandDoc fun hlt => e.startsAs_doc ?_).cat _
    simpa [firstName?, show ¬ e.level ≤ conditionalLevel by omega] using h

/-- Where a brace would start a block, the text of `e` starts with one exactly if an object literal
stands first in a larger expression, whatever the line width. -/
theorem head?_guardedDoc_iff [Letters] {e : Expr}
    (h : ∀ x ∈ e.firstName?, isNameHere x = true) (width : Nat) :
    ((guardedDoc e e.doc).render width false).toList.head? = some '\x7b' ↔
      e.isGuarded = false := by
  have hplain : (guardedDoc e e.doc).isPlain = true := by simp [e.isPlain_doc]
  rw [(Doc.shows_render hplain width).head?]
  unfold guardedDoc Expr.isGuarded
  by_cases hobject : e.isObject = true
  · have hparens : (Doc.parens e.doc).firstChar = some '(' := firstChar_enclose rfl
    simp [hobject, hparens]
  · obtain ⟨c, hc, hbrace⟩ := e.startsAs_doc h
    simp [hobject, hc, hbrace]

/-! ## Literals that larger expressions start with -/

/-- No object literal stands first in a larger expression, and no property of an integer is read. -/
def literalRule : Rule where
  name _ := True
  leader e := e.isObject = false
  subject e := e.isInt = false

/-- If `e` obeys `literalRule` and its text starts with an object literal, `e` is one. -/
theorem Expr.isObject_of_obeys {e : Expr} (h : e.Obeys literalRule)
    (hstarts : e.startsWithObject = true) : e.isObject = true := by
  -- no object literal leads, so none stands first further to the left
  have hfirst {e : Expr} {b : Bool} {P : Prop} (hleader : literalRule.leader e)
      (ih : e.startsWithObject = true → e.isObject = true)
      (hstarts : (b && e.startsWithObject) = true) : P :=
    absurd (hleader.symm.trans (ih (Bool.and_eq_true_iff.1 hstarts).2)) Bool.false_ne_true
  fun_induction Expr.startsWithObject e with
  | case1 => rfl
  | case2 e _ ih =>
    obtain ⟨⟨hleader, -⟩, he⟩ := obeys_access.1 h
    exact hfirst hleader (ih he) hstarts
  | case3 e _ ih =>
    obtain ⟨hleader, he, -⟩ := obeys_index.1 h
    exact hfirst hleader (ih he) hstarts
  | case4 e _ ih =>
    obtain ⟨hleader, he, -⟩ := obeys_call.1 h
    exact hfirst hleader (ih he) hstarts
  | case5 _ e _ ih =>
    obtain ⟨hleader, he, -⟩ := obeys_binary.1 h
    exact hfirst hleader (ih he) hstarts
  | case6 e _ _ ih =>
    obtain ⟨hleader, he, -⟩ := obeys_conditional.1 h
    exact hfirst hleader (ih he) hstarts
  | case7 => cases hstarts

/-- So `e` can stand where a brace would start a block. -/
theorem Expr.isGuarded_of_obeys {e : Expr} (h : e.Obeys literalRule) : e.isGuarded = true := by
  unfold isGuarded
  cases hstarts : e.startsWithObject with
  | false => simp
  | true => simp [isObject_of_obeys h hstarts]

/-- A function body, a statement or a property is read as it is meant. -/
def Node.isGuarded : Node → Bool
  | .expr (.arrow _ body) => isGuardedBody body
  | .expr (.access e _) => !e.isInt
  | .stmt (.expr e) => e.isGuarded
  | _ => true

/-- All nodes of a block that obeys `literalRule` are read as they are meant. -/
theorem isGuarded_of_blockObeys {block : List Stmt} (h : BlockObeys literalRule block) :
    ∀ n ∈ nodesIn block, n.isGuarded = true := by
  intro n hn
  have hnodes (m : Node) (hm : m ∈ n.nodes) : literalRule.Allows m :=
    blockObeys_iff.1 h m (whole_nodesIn block n hn hm)
  unfold Node.isGuarded
  split
  · rename_i params body
    have hbody : BlockObeys literalRule body := (Expr.obeys_arrow.1 hnodes).2
    unfold isGuardedBody
    split
    · exact Expr.isGuarded_of_obeys (Stmt.obeys_ret.1 (blockObeys_cons.1 hbody).1)
    · exact Expr.isGuarded_of_obeys (Stmt.obeys_retObject.1 (blockObeys_cons.1 hbody).1)
    · rfl
  · have hsubject : literalRule.subject _ := (Expr.obeys_access.1 hnodes).1.2
    simpa [literalRule] using hsubject
  · exact Expr.isGuarded_of_obeys (Stmt.obeys_expr.1 hnodes)
  · rfl

end Script

namespace Term

variable {α β : Type}

/-- The subterm that a term is written as: an application to nothing, a test for truth and a branch
without arms are written as the term in them. -/
def core : Term α → Term α
  | app _ .curried head [] => head.core
  | test _ subject (.boolean true) => subject.core
  | branch _ [] default => default.core
  | t => t

/-- `t` is written as an object literal. -/
def writesObject (t : Term α) : Bool :=
  match t.core with
  | record .. | construct .. | update .. | constructor _ _ [] => true
  | _ => false

/-- `t` is written as a whole number. -/
def writesInteger (t : Term α) : Bool :=
  match t.core with
  | lit _ (.int _) => true
  | _ => false

/-- `t` puts no object literal first in a larger expression and reads no property of an integer. -/
def keepsFront (t : Term α) : Bool :=
  t.leaders.all (fun s => !s.writesObject) && t.subjects.all fun s => !s.writesInteger

variable (f : α → β)

/-- Notes do not change what `t` is written as. -/
theorem core_map (t : Term α) : (t.map f).core = t.core.map f := by
  induction t using children_induction with
  | step t ih =>
  cases t with
  | app _ calling head args =>
    cases calling with
    | curried =>
      cases args with
      | nil => simpa [map, mapList, core] using ih head (by simp [children])
      | cons => simp [map, mapList, core]
    | _ => simp [map, core]
  | test _ subject guard =>
    cases guard with
    | boolean value => cases value <;> simp [map, core, ih subject (by simp [children])]
    | _ => simp [map, core]
  | branch _ arms default =>
    cases arms with
    | nil => simpa [map, mapArms, core] using ih default (by simp [children])
    | cons arm => simp [map, mapArms, core]
  | _ => simp [map, core]

theorem writesObject_map (t : Term α) : (t.map f).writesObject = t.writesObject := by
  unfold writesObject
  rw [core_map]
  cases t.core with
  | constructor _ _ fields => cases fields <;> simp [map]
  | _ => simp [map]

theorem writesInteger_map (t : Term α) : (t.map f).writesInteger = t.writesInteger := by
  unfold writesInteger
  rw [core_map]
  cases t.core with
  | lit _ value => cases value <;> simp [map]
  | _ => simp [map]

theorem keepsFront_map (t : Term α) : (t.map f).keepsFront = t.keepsFront := by
  simp [keepsFront, leaders_map, subjects_map, writesObject_map, writesInteger_map,
    Function.comp_def]

end Term

namespace Lower

open Script Lowering Term

variable {callee : Lowering Script.Expr} {args : List (Lowering Script.Expr)}

/-- `callEach` is a call if there is an argument. -/
theorem gives_callEach_cons {arg : Lowering Script.Expr} {Q : Script.Expr → Prop}
    (hcall : ∀ f xs, Q (.call f xs)) : Gives (callEach callee (arg :: args)) Q := by
  induction args generalizing callee arg with
  | nil => exact fun _ => hcall _ _
  | cons arg' rest ih =>
    rw [callEach, List.foldl_cons]
    exact ih

/-- `e` is a literal that must not stand first only where `t` is written as one. -/
structure WritesAs (t : Analyzed) (e : Script.Expr) : Prop where
  /-- It is an object literal only if the term is written as one. -/
  object : e.isObject = true → t.writesObject = true
  /-- It is an integer only if the term is written as one. -/
  integer : e.isInt = true → t.writesInteger = true

/-- What `m` gives is no such literal. -/
theorem writesAs_of_plain {t : Analyzed} {m : Lowering Script.Expr}
    (h : Gives m fun e => e.isObject = false ∧ e.isInt = false) : Gives m (WritesAs t) :=
  h.mono fun _ he => ⟨by simp [he.1], by simp [he.2]⟩

/-- A curried function is no such literal. -/
theorem curried_plain (params : List String) (body : List Stmt) :
    (Script.Expr.curried params body).isObject = false ∧
      (Script.Expr.curried params body).isInt = false := by
  cases params with
  | nil => exact ⟨rfl, rfl⟩
  | cons p rest => cases rest <;> exact ⟨rfl, rfl⟩

/-- What `t` is written as says which literal its value can be. -/
theorem writesAs_code (c : Context) (t : Analyzed) : Gives (code c t).value (WritesAs t) := by
  induction t using children_induction with
  | step t ih =>
  -- a term that is written as one of its subterms is written as that subterm is
  have hcore (s : Analyzed) (hs : s ∈ t.children) (h : t.core = s.core) :
      Gives (code c s).value (WritesAs t) :=
    (ih s hs).mono fun e he => ⟨fun ho => by simpa [writesObject, h] using he.object ho,
      fun hi => by simpa [writesInteger, h] using he.integer hi⟩
  cases t with
  | global a q =>
    refine writesAs_of_plain (.pure ?_)
    unfold globalExpr
    split
    · exact ⟨rfl, rfl⟩
    · split <;> exact ⟨rfl, rfl⟩
  | lit a value =>
    cases value with
    | int => exact .pure ⟨nofun, fun _ => rfl⟩
    | _ => exact writesAs_of_plain (.pure ⟨rfl, rfl⟩)
  | record | construct | update => exact fun _ => ⟨fun _ => rfl, nofun⟩
  -- a constructor without fields is an object, with fields a function
  | constructor a tag fields =>
    cases fields with
    | nil => exact fun _ => ⟨fun _ => rfl, nofun⟩
    | cons x rest =>
      have hnames : Gives (freshNames (x :: rest)) fun names => names ≠ [] :=
        fun _ => List.cons_ne_nil _ _
      refine writesAs_of_plain (hnames.map fun names hne => ?_)
      rw [constructorExpr, if_neg (by simpa using hne)]
      exact curried_plain ..
  | app a calling head args =>
    cases calling with
    | curried =>
      cases args with
      -- a call without arguments is its head
      | nil => exact hcore head (List.mem_singleton.2 rfl) rfl
      | cons arg rest =>
        rw [code, valueCodes]
        exact writesAs_of_plain (gives_callEach_cons fun _ _ => ⟨rfl, rfl⟩)
    | _ => exact writesAs_of_plain fun _ => ⟨rfl, rfl⟩
  | abs a calling params body =>
    cases calling with
    | curried => exact writesAs_of_plain fun _ => curried_plain ..
    | _ => exact writesAs_of_plain fun _ => ⟨rfl, rfl⟩
  | access a subject accessor => cases accessor <;> exact writesAs_of_plain fun _ => ⟨rfl, rfl⟩
  | test a subject guard =>
    cases guard with
    | boolean value =>
      cases value with
      | true => exact hcore subject (List.mem_singleton.2 rfl) rfl
      | false => exact writesAs_of_plain fun _ => ⟨rfl, rfl⟩
    | _ => exact writesAs_of_plain fun _ => ⟨rfl, rfl⟩
  | branch a arms default =>
    rw [code]
    unfold branchCode
    split
    · cases arms with
      | nil => exact hcore default (List.mem_singleton.2 rfl) rfl
      | cons => exact writesAs_of_plain fun _ => ⟨rfl, rfl⟩
    · exact writesAs_of_plain fun _ => ⟨rfl, rfl⟩
  | _ => exact writesAs_of_plain fun _ => ⟨rfl, rfl⟩

/-- `literalRule` allows what the lowering writes of its own accord. -/
theorem admits_literalRule : Admits literalRule :=
  ⟨fun _ _ => trivial, fun _ => trivial, fun _ h => h, fun _ h => h⟩

/-- A node `t` that puts no literal first fits. -/
theorem fitsRule_literalRule {c : Context} {t : Analyzed} (h : t.keepsFront = true) :
    FitsRule literalRule c t := by
  simp only [keepsFront, Bool.and_eq_true, List.all_eq_true, Bool.not_eq_true'] at h
  obtain ⟨hleaders, hsubjects⟩ := h
  refine ⟨fun _ _ => trivial, fun s hs => ?_, fun s hs => ?_⟩
  · refine (writesAs_code c s).mono fun e he => Bool.eq_false_iff.2 fun hobject => ?_
    exact Bool.false_ne_true ((hleaders s hs).symm.trans (he.object hobject))
  · refine (writesAs_code c s).mono fun e he => Bool.eq_false_iff.2 fun hint => ?_
    exact Bool.false_ne_true ((hsubjects s hs).symm.trans (he.integer hint))

/-- If no node of `u` puts a literal first, then all function bodies, statements and properties in
its script are read as they are meant. -/
theorem guarded_module (u : CompilationUnit) (loops : Bool)
    (h : ∀ b ∈ u.bindings, ∀ t ∈ b.2.subterms, t.keepsFront = true) :
    ∀ n ∈ nodesIn (Lower.module u loops).result.declarations, n.isGuarded = true := by
  refine isGuarded_of_blockObeys (obeys_module admits_literalRule u loops (fun _ _ => trivial) ?_)
  intro b hb s hs
  refine fitsRule_literalRule ?_
  rw [← keepsFront_map]
  exact h b hb s.erase hs

/-- A unit with a function that reads a property of an object literal, and with a property of an
integer. -/
def literalUnit : CompilationUnit :=
  { CompilationUnit.empty "Main" with
    groups := [
      ⟨false, [("f", .abs () .curried [⟨some "x", 0⟩]
        (.access () (.record () [("a", .lit () (.int 1))]) (.property "a")))]⟩,
      ⟨false, [("g", .access () (.lit () (.int 1)) (.property "a"))]⟩] }

/-- The brace of the object literal starts a block, and the point behind the integer is a part of
it. -/
theorem misread_literalUnit :
    ((nodesIn (Lower.module literalUnit true).result.declarations).countP
        fun n => !n.isGuarded) = 2 ∧
      ((Lower.module literalUnit true).result.doc.render 80 false).toList =
        "const f = x => \x7b a: 1 \x7d.a;\nconst g = 1.a;".toList := by
  decide +kernel

end Lower

end TailLoop
