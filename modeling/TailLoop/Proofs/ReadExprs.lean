import TailLoop.Proofs.Parsing
import TailLoop.Proofs.ReadForms

/-!
# Expressions read from their texts

Each piece of a document comes with its tokens and their derivation, and the pieces are put together
along the printer: one lemma for each kind of expression, about its parts.

* `Spells`: a document is a text of a tree of some category.
* `Expr.Written`: the same for an expression, with how tightly it binds and whether an object
  literal comes first.
-/

namespace TailLoop.Script

open Layout

/-! ## Derivations -/

/-- `escapeIdent` writes no name as a keyword. -/
theorem escapeIdent_not_mem_keywords (name : String) : escapeIdent name ∉ keywords := by
  have hplain : ∀ w ∈ keywords, '$' ∉ w.toList := by decide
  have hreserved : ∀ w ∈ keywords, w ∈ reservedWords := by decide
  intro hmem
  have hdollar := hplain _ hmem
  -- without a dollar sign the name is written as it is, and no reserved word is
  rw [escapeIdent_of_dollar_notMem hdollar] at hmem
  rw [escapeIdent, if_pos (hreserved _ hmem)] at hdollar
  simp at hdollar

theorem derives_ident (name : String) :
    Derives .name [.word (escapeIdent name)] (escapeIdent name) :=
  .name (escapeIdent_not_mem_keywords name)

/-- What binds at most as loosely as `j` does as `k`, if `j ≤ k`. -/
theorem Derives.loosen {j k : Nat} {ts : List Token} {e : Expr} (h : Derives (.binary j) ts e)
    (hjk : j ≤ k) : Derives (.binary k) ts e := by
  induction hjk with
  | refl => exact h
  | step _ ih => exact ih.tighter

/-- `ts` are the expression `e`, which can stand wherever at most this `level` is demanded. -/
structure DerivesAt (level : Nat) (ts : List Token) (e : Expr) : Prop where
  member : memberLevel ≤ level → Derives (.member true) ts e
  unary : unaryLevel ≤ level → Derives .unary ts e
  binary : conditionalLevel < level → Derives (.binary 6) ts e
  assignment : Derives .assignment ts e

namespace DerivesAt

variable {level : Nat} {ts : List Token} {e : Expr}

theorem mono (h : DerivesAt level ts e) {demanded : Nat} (hle : demanded ≤ level) :
    DerivesAt demanded ts e where
  member hl := h.member (Nat.le_trans hl hle)
  unary hl := h.unary (Nat.le_trans hl hle)
  binary hl := h.binary (Nat.lt_of_lt_of_le hl hle)
  assignment := h.assignment

theorem ofAssignment (h : Derives .assignment ts e) (hlevel : level ≤ conditionalLevel) :
    DerivesAt level ts e where
  member hl := by simp only [memberLevel, conditionalLevel] at *; omega
  unary hl := by simp only [unaryLevel, conditionalLevel] at *; omega
  binary hl := by omega
  assignment := h

theorem ofBinary (h : Derives (.binary 6) ts e) (hlevel : level < unaryLevel) :
    DerivesAt level ts e where
  member hl := by simp only [memberLevel, unaryLevel] at *; omega
  unary hl := by omega
  binary _ := h
  assignment := h.binary.conditional

theorem ofUnary (h : Derives .unary ts e) (hlevel : level < memberLevel) :
    DerivesAt level ts e where
  member hl := by omega
  unary _ := h
  binary _ := h.unary.loosen (Nat.zero_le 6)
  assignment := (h.unary.loosen (Nat.zero_le 6)).binary.conditional

theorem ofMember (h : Derives (.member true) ts e) : DerivesAt level ts e where
  member _ := h
  unary _ := h.member
  binary _ := h.member.unary.loosen (Nat.zero_le 6)
  assignment := (h.member.unary.loosen (Nat.zero_le 6)).binary.conditional

theorem ofPrimary (h : Derives .primary ts e) : DerivesAt level ts e := ofMember h.primary

end DerivesAt

/-- A number that is not negative is read from its digits. -/
theorem derives_natAbs {i : Int64} (h : 0 ≤ i.toInt) :
    Derives .primary [.numeral i.toInt.natAbs] (.int i) := by
  have hbound : i.toInt.natAbs < leastSize := by
    have := i.toInt_lt
    simp only [leastSize]
    omega
  have hvalue : Int64.ofNat i.toInt.natAbs = i := by
    rw [← Int64.ofInt_eq_ofNat, Int.natAbs_of_nonneg h, Int64.ofInt_toInt]
  simpa [hvalue] using Derives.int hbound

/-- A negative number is read from its sign and its digits. -/
theorem derives_negative {i : Int64} (h : i.toInt < 0) :
    Derives .unary [.sign "-", .numeral i.toInt.natAbs] (.int i) := by
  have hle := i.le_toInt
  by_cases hleast : i.toInt = -2 ^ 63
  · have hmin : i = Int64.minValue := Int64.toInt_inj.1 (hleast.trans Int64.toInt_minValue.symm)
    rw [hleast, hmin]
    exact .least
  · have hbound : i.toInt.natAbs < 2 ^ 63 := by omega
    have hpositive : 0 < Int64.ofNat i.toInt.natAbs := by
      rw [Int64.lt_iff_toInt_lt, Int64.toInt_ofNat_of_lt hbound, Int64.toInt_zero]
      omega
    have hneg : -Int64.ofNat i.toInt.natAbs = i := by
      rw [← Int64.ofInt_eq_ofNat, ← Int64.ofInt_neg]
      have : -(i.toInt.natAbs : Int) = i.toInt := by omega
      rw [this, Int64.ofInt_toInt]
    have hoperand : Derives .unary [.numeral i.toInt.natAbs] (.int (.ofNat i.toInt.natAbs)) :=
      (Derives.int hbound).primary.member
    have hunary : Derives .unary [.sign "-", .numeral i.toInt.natAbs]
        (applied .negate (.int (.ofNat i.toInt.natAbs))) := .unaryOp rfl hoperand
    simpa [applied, hpositive, hneg] using hunary

/-- What follows `ts` does not change its first token. -/
theorem head?_append_ne {c : Category} {ts us : List Token} {a : c.Tree} (h : Derives c ts a)
    (hc : c.mayBeEmpty = false) {t : Token} (hts : ts.head? ≠ some t) :
    (ts ++ us).head? ≠ some t := by
  obtain ⟨t', ts', rfl, -⟩ := h.exists_cons hc
  exact hts

/-- `binaryOp?` finds the operator of `binarySign op`. -/
theorem binaryOp?_binarySign (op : BinaryOp) :
    ∃ k < 6, binaryOp? (binarySign op) = some (op, k + 1) := by
  cases op <;> exact ⟨_, by decide, rfl⟩

/-! ## Lists and documents -/

theorem exprsNormal_eq_map (es : List Expr) : exprsNormal es = es.map Expr.normal := by
  induction es with
  | nil => rfl
  | cons e es ih => rw [exprsNormal, ih, List.map_cons]

theorem fieldsNormal_eq_map (fs : List Field) : fieldsNormal fs = fs.map Field.normal := by
  induction fs with
  | nil => rfl
  | cons f fs ih => rw [fieldsNormal, ih, List.map_cons]

theorem stmtsNormal_eq_map (ss : List Stmt) : stmtsNormal ss = ss.map Stmt.normal := by
  induction ss with
  | nil => rfl
  | cons s ss ih => rw [stmtsNormal, ih, List.map_cons]

/-- If `d` has a first character, the whole starts with it. -/
theorem exists_firstChar_cat {d d' : Doc} {p : Char → Prop} (h : ∃ c ∈ d.firstChar, p c) :
    ∃ c ∈ (d ++ d').firstChar, p c := by
  obtain ⟨c, hc, hp⟩ := h
  exact ⟨c, by simp [Option.mem_def.1 hc], hp⟩

/-- `enclose` starts with the first character of `before`. -/
theorem firstChar_enclose {before after : String} {d : Doc} {c : Char}
    (h : before.toList.head? = some c) : (Doc.enclose before after d).firstChar = some c := by
  simp [Doc.enclose, Doc.firstChar, h]

/-! ## Documents of trees -/

variable [Letters]

/-- `d` is a text of the `tree`, read as a part of the category `c`. -/
def Spells (c : Category) (edge : Edge) (d : Doc) (tree : c.Tree) : Prop :=
  ∃ ts, Lexes edge d ts ∧ Derives c ts tree

/-! ## Names -/

/-- `identDoc` is the one word `escapeIdent name`. -/
theorem lexes_identDoc {name : String} (h : isNameHere name = true) :
    Lexes .word (identDoc name) [.word (escapeIdent name)] :=
  .str (cuts_word h)

/-- If `name` is written as a word outside, it is an identifier of the language. -/
theorem isName_of_isNameOutside {name : String} (h : isNameOutside name = true)
    (hword : isIdentName name = true) : isName name = true := by
  simpa [isNameOutside, hword] using h

/-- `outerName` is read as a label. -/
theorem spells_outerName {name : String} (h : isNameOutside name = true) :
    Spells .label .word (outerName name) name := by
  unfold outerName
  split
  next hword => exact ⟨_, .str (cuts_word (isName_of_isNameOutside h hword)), .labelWord⟩
  · exact ⟨_, .weaken (.styled (cuts_text name)), .labelText⟩

/-! ## Pieces -/

theorem lexes_keyword {w : String} (h : isName w = true) :
    Lexes .word (keyword w) [.word w] :=
  .styled (cuts_word h)

theorem lexes_space : Lexes .closed Doc.space [] := .blank rfl

theorem lexes_textDoc (s : String) : Lexes .closed (textDoc s) [.text s] := .styled (cuts_text s)

/-- `.numeral` is the strictest edge of an expression. -/
theorem Lexes.toNumeral {d : Doc} {ts : List Token} (h : Lexes .word d ts) : Lexes .numeral d ts :=
  h.mono fun _ hc => hc.1

/-- `enclose` has the tokens of `before`, of `d` and of `after`. -/
theorem Lexes.enclose {before after : String} {e : Edge} {d : Doc} {us ts vs : List Token}
    (hbefore : Lexes .closed (.text before) us) (h : Lexes e d ts)
    (hafter : Lexes .closed (.text after) vs) (hbreak : after.toList.head?.any isBreak = true) :
    Lexes .closed (.enclose before after d) (us ++ (ts ++ vs)) :=
  hbefore.cat_closed (h.cat_break hafter hbreak)

theorem Lexes.parens {e : Edge} {d : Doc} {ts : List Token} (h : Lexes e d ts) :
    Lexes .closed (.parens d) (.sign "(" :: ts ++ [.sign ")"]) :=
  .enclose (.sign [] rfl rfl (by decide)) h (.sign [] rfl rfl (by decide)) rfl

theorem Lexes.brackets {e : Edge} {d : Doc} {ts : List Token} (h : Lexes e d ts) :
    Lexes .closed (.brackets d) (.sign "[" :: ts ++ [.sign "]"]) :=
  .enclose (.sign [] rfl rfl (by decide)) h (.sign [] rfl rfl (by decide)) rfl

theorem Lexes.braces {e : Edge} {d : Doc} {ts : List Token} (h : Lexes e d ts) :
    Lexes .closed (.braces d) (.sign "\x7b" :: ts ++ [.sign "\x7d"]) :=
  .enclose (.sign [] rfl rfl (by decide)) h (.sign [] rfl rfl (by decide)) rfl

/-- `commas` of documents are read as a list of their trees. -/
theorem spells_commas {α : Type} (item : Category) (f : α → Doc) (g : α → item.Tree) (xs : List α)
    (h : ∀ x ∈ xs, Spells item .numeral (f x) (g x)) :
    Spells (.commas item) .numeral (commas (xs.map f)) (xs.map g) := by
  have hseries : ∀ x rest, (∀ y ∈ x :: rest, Spells item .numeral (f y) (g y)) →
      Spells (.series item) .numeral (commas ((x :: rest).map f)) ((x :: rest).map g) := by
    intro x rest h
    induction rest generalizing x with
    | nil =>
      obtain ⟨ts, hlex, hderives⟩ := h x (List.mem_cons_self ..)
      exact ⟨ts, hlex, .one hderives⟩
    | cons y rest ih =>
      obtain ⟨ts, hlex, hderives⟩ := h x (List.mem_cons_self ..)
      obtain ⟨us, hlex', hderives'⟩ := ih y fun z hz => h z (List.mem_cons_of_mem _ hz)
      have hcomma : Lexes .closed (.text ", ") [.sign ","] := .blank rfl
      refine ⟨ts ++ .sign "," :: us, ?_, .more hderives hderives'⟩
      exact hlex.cat_break (hcomma.cat_closed hlex') (by simp [Doc.firstChar]; rfl)
  cases xs with
  | nil => exact ⟨[], .nil, .none⟩
  | cons x rest =>
    obtain ⟨ts, hlex, hderives⟩ := hseries x rest h
    exact ⟨ts, hlex, .some hderives⟩

/-- The line `d` before others. -/
theorem lexes_line {d : Doc} {ds : List Doc} {ts us : List Token} (h : Lexes .closed d ts)
    (h' : Lexes .closed (.intersperse .hardline ds) us) :
    Lexes .closed (.intersperse .hardline (d :: ds)) (ts ++ us) := by
  cases ds with
  | nil => exact d.cat_nil ▸ h.cat_closed h'
  | cons d' ds => exact h.cat_closed (Lexes.hardline.cat_closed h')

/-- Documents on lines of their own, with others behind them, are read one by one. -/
theorem spells_lines {α : Type} (item : Category) (f : α → Doc) (g : α → item.Tree) (xs : List α)
    (h : ∀ x ∈ xs, Spells item .closed (f x) (g x)) :
    ∃ ts, Derives (.many item) ts (xs.map g) ∧
      ∀ ds us, Lexes .closed (.intersperse .hardline ds) us →
        Lexes .closed (.intersperse .hardline (xs.map f ++ ds)) (ts ++ us) := by
  induction xs with
  | nil => exact ⟨[], .nil, fun ds us h => h⟩
  | cons x xs ih =>
    obtain ⟨ts, hlex, hderives⟩ := h x (List.mem_cons_self ..)
    obtain ⟨us, hmany, hlines⟩ := ih fun y hy => h y (List.mem_cons_of_mem _ hy)
    refine ⟨ts ++ us, .cons hderives hmany, fun ds vs hrest => ?_⟩
    rw [List.append_assoc]
    exact lexes_line hlex (hlines ds vs hrest)

/-! ## Expressions -/

/-- What may follow an expression: no dot behind what can end with a number. -/
def Expr.edge : Expr → Edge
  | .int _ | .unary .. | .binary .. | .conditional .. | .arrow .. => .numeral
  | _ => .word

/-- `e` is read from its text, and no brace comes first but that of an object literal. -/
def Expr.Written (e : Expr) : Prop :=
  ∃ ts, Lexes e.edge e.doc ts ∧ DerivesAt e.level ts e.normal ∧
    (e.startsWithObject = false → ts.head? ≠ some (.sign "\x7b"))

/-- `e` at a place that demands a level; parentheses make it fit. -/
theorem Expr.Written.operand {e : Expr} (h : e.Written) (demanded : Nat) :
    ∃ ts, Lexes (if e.level < demanded then .closed else e.edge) (operandDoc demanded e e.doc) ts ∧
      DerivesAt demanded ts e.normal ∧
      ((decide (demanded ≤ e.level) && e.startsWithObject) = false →
        ts.head? ≠ some (.sign "\x7b")) := by
  obtain ⟨ts, hlex, hderives, hbrace⟩ := h
  unfold operandDoc
  by_cases hlt : e.level < demanded
  · refine ⟨_, ?_, .ofPrimary hderives.assignment.parens, by simp⟩
    simpa [hlt] using hlex.parens
  · refine ⟨ts, by simpa [hlt] using hlex, hderives.mono (by omega), fun h => hbrace ?_⟩
    simpa [Nat.le_of_not_lt hlt] using h

/-- The same, with the strictest edge. -/
theorem Expr.Written.operand_numeral {e : Expr} (h : e.Written) (demanded : Nat) :
    ∃ ts, Lexes .numeral (operandDoc demanded e e.doc) ts ∧ DerivesAt demanded ts e.normal ∧
      ((decide (demanded ≤ e.level) && e.startsWithObject) = false →
        ts.head? ≠ some (.sign "\x7b")) := by
  obtain ⟨ts, hlex, hderives⟩ := h.operand demanded
  refine ⟨ts, hlex.mono fun c hc => ?_, hderives⟩
  split
  · trivial
  · cases e <;> first | exact hc | exact hc.1

theorem Expr.Written.spells {e : Expr} (h : e.Written) :
    Spells .assignment .numeral e.doc e.normal := by
  obtain ⟨ts, hlex, hderives, -⟩ := h.operand_numeral 0
  exact ⟨ts, by simpa [operandDoc] using hlex, hderives.assignment⟩

/-! ### Leaves -/

theorem written_int (i : Int64) : (Expr.int i).Written := by
  have hnumeral := cuts_numeral i.toInt.natAbs
  by_cases hneg : i.toInt < 0
  · have hlt : i < 0 := by rwa [Int64.lt_iff_toInt_lt, Int64.toInt_zero]
    have hnumber := (cuts_unarySign .negate).append hnumeral (allows_digitsText _)
    refine ⟨[.sign "-", .numeral i.toInt.natAbs], .styled ?_, ?_, by simp⟩
    · simpa [Decimal.intText, hneg, Expr.edge, unarySign] using hnumber
    · exact .ofUnary (derives_negative hneg) (by simp [Expr.level, hlt]; decide)
  · refine ⟨[.numeral i.toInt.natAbs], .styled ?_, .ofPrimary (derives_natAbs (by omega)), by simp⟩
    simpa [Decimal.intText, hneg, Expr.edge] using hnumeral

theorem written_ident {name : String} (h : isNameHere name = true) : (Expr.ident name).Written :=
  ⟨_, lexes_identDoc h, .ofPrimary (.ident (derives_ident name)), by simp⟩

theorem written_text (s : String) : (Expr.text s).Written :=
  ⟨_, (lexes_textDoc s).weaken, .ofPrimary .text, by simp⟩

theorem written_boolean (b : Bool) : (Expr.boolean b).Written := by
  cases b with
  | true => exact ⟨_, .styled (cuts_word (w := "true") rfl), .ofPrimary .true, by simp⟩
  | false => exact ⟨_, .styled (cuts_word (w := "false") rfl), .ofPrimary .false, by simp⟩

theorem written_undefined : Expr.undefined.Written :=
  ⟨_, lexes_keyword rfl, .ofPrimary .undefined, by simp⟩

/-! ### Lists -/

/-- The arguments or items `es`, one by one. -/
theorem spells_exprs {es : List Expr} (h : ∀ e ∈ es, e.Written) :
    Spells (.commas .assignment) .numeral (commas (exprDocs es)) (exprsNormal es) := by
  rw [exprDocs_eq_map, exprsNormal_eq_map]
  exact spells_commas .assignment Expr.doc Expr.normal es fun e he => (h e he).spells

theorem written_array {es : List Expr} (h : ∀ e ∈ es, e.Written) : (Expr.array es).Written := by
  obtain ⟨ts, hlex, hderives⟩ := spells_exprs h
  exact ⟨_, hlex.brackets.weaken, .ofPrimary hderives.array, by simp⟩

theorem written_object {fs : List Field} (h : ∀ f ∈ fs, Spells .field .numeral f.doc f.normal) :
    (Expr.object fs).Written := by
  have hfields : Spells (.commas .field) .numeral (commas (fieldDocs fs)) (fieldsNormal fs) := by
    rw [fieldDocs_eq_map, fieldsNormal_eq_map]
    exact spells_commas .field Field.doc Field.normal fs h
  obtain ⟨ts, hlex, hderives⟩ := hfields
  refine ⟨_, ?_, .ofPrimary hderives.object, by simp [Expr.startsWithObject]⟩
  cases fs with
  | nil =>
    cases hderives with
    | none => exact (Lexes.sign [.sign "\x7b"] rfl rfl (by decide)).weaken
    | some h => cases h
  | cons f fs =>
    have hbefore : Lexes .closed (.text "\x7b ") [.sign "\x7b"] := .blank rfl
    have hafter : Lexes .closed (.text " \x7d") [.sign "\x7d"] :=
      .sign [] rfl rfl (by decide)
    exact (hbefore.enclose hlex hafter rfl).weaken

/-! ### Member access and calls -/

/-- `e` as an object or a callee. -/
theorem Expr.Written.member {e : Expr} (h : e.Written) :
    ∃ ts, Lexes (if e.isInt then .numeral else .word) (operandDoc memberLevel e e.doc) ts ∧
      Derives (.member true) ts e.normal ∧
      ((decide (memberLevel ≤ e.level) && e.startsWithObject) = false →
        ts.head? ≠ some (.sign "\x7b")) := by
  obtain ⟨ts, hlex, hderives, hbrace⟩ := h.operand memberLevel
  refine ⟨ts, hlex.mono fun c hc => ?_, hderives.member (Nat.le_refl _), hbrace⟩
  split
  · trivial
  next hlevel =>
    cases e with
    | unary => exact absurd (show unaryLevel < memberLevel by decide) hlevel
    | binary op => exact absurd (show binaryLevel op < memberLevel by cases op <;> decide) hlevel
    | conditional => exact absurd (show conditionalLevel < memberLevel by decide) hlevel
    | arrow => exact absurd (show 1 < memberLevel by decide) hlevel
    | _ => exact hc

/-- The property `p` behind a dot. -/
theorem lexes_property {p : String} (hp : isName p = true) :
    Lexes .word (.text ("." ++ p)) [.sign ".", .word p] := by
  refine .text ?_
  rw [String.toList_append]
  refine cuts_dot.append (cuts_word hp) ?_
  unfold isName at hp
  cases hcs : p.toList with
  | nil => simp [hcs] at hp
  | cons c cs =>
    simp only [hcs, Bool.and_eq_true] at hp
    exact ⟨c, rfl, allows_of_isNameStart hp.1⟩

theorem written_access {e : Expr} {p : String} (h : e.Written) (hint : e.isInt = false)
    (hproperty : isNameOutside p = true) : (Expr.access e p).Written := by
  obtain ⟨ts, hlex, hderives, hbrace⟩ := h.member
  simp only [hint, Bool.false_eq_true, if_false] at hlex
  have hhead : (Expr.access e p).startsWithObject = false → ∀ us,
      (ts ++ us).head? ≠ some (.sign "\x7b") :=
    fun h us => head?_append_ne hderives rfl (hbrace h)
  unfold Expr.Written
  rw [Expr.doc, Expr.normal, propertyDoc]
  by_cases hp : isIdentName p = true
  · rw [if_pos hp, if_pos hp]
    have hword := lexes_property (isName_of_isNameOutside hproperty hp)
    exact ⟨_, hlex.cat hword ⟨'.', by simp [Doc.firstChar], rfl⟩, .ofMember hderives.access,
      fun h => hhead h _⟩
  · rw [if_neg hp, if_neg hp]
    have hindex := (lexes_textDoc p).brackets
    have htext : Derives .assignment [.text p] (.text p) :=
      (DerivesAt.ofPrimary .text : DerivesAt 0 _ _).assignment
    exact ⟨_, hlex.cat_text hindex.weaken rfl, .ofMember (hderives.index htext),
      fun h => hhead h _⟩

theorem written_index {e i : Expr} (he : e.Written) (hi : i.Written) :
    (Expr.index e i).Written := by
  obtain ⟨ts, hlex, hderives, hbrace⟩ := he.member
  obtain ⟨us, hlex', hderives'⟩ := hi.spells
  exact ⟨_, hlex.cat_text hlex'.brackets.weaken rfl, .ofMember (hderives.index hderives'),
    fun h => head?_append_ne hderives rfl (hbrace h)⟩

theorem written_call {f : Expr} {es : List Expr} (hf : f.Written) (hes : ∀ e ∈ es, e.Written) :
    (Expr.call f es).Written := by
  obtain ⟨ts, hlex, hderives, hbrace⟩ := hf.member
  obtain ⟨us, hlex', hderives'⟩ := spells_exprs hes
  exact ⟨_, hlex.cat_text hlex'.parens.weaken rfl, .ofMember (hderives.call hderives'),
    fun h => head?_append_ne hderives rfl (hbrace h)⟩

theorem written_new {name : String} {es : List Expr} (hname : isNameHere name = true)
    (hes : ∀ e ∈ es, e.Written) : (Expr.new (.ident name) es).Written := by
  obtain ⟨us, hlex, hderives⟩ := spells_exprs hes
  have hcallee : Derives (.member false) [.word (escapeIdent name)] (.ident (escapeIdent name)) :=
    (Derives.ident (derives_ident name)).primary
  have hcall := (lexes_identDoc hname).cat_text hlex.parens rfl
  have hnew := (lexes_keyword (w := "new") rfl).cat_text (lexes_space.cat_closed hcall) rfl
  exact ⟨_, hnew.weaken, .ofMember (hcallee.new hderives), by simp⟩

/-! ### Operators -/

/-- The first character of `identDoc` starts an identifier. -/
theorem exists_firstChar_identDoc {name : String} (h : isNameHere name = true) :
    ∃ c ∈ (identDoc name).firstChar, isNameStart c = true := by
  unfold isNameHere isName at h
  cases hcs : (escapeIdent name).toList with
  | nil => simp [hcs] at h
  | cons c cs =>
    simp only [hcs, Bool.and_eq_true] at h
    have hne : escapeIdent name ≠ "" := by
      intro heq
      simp [heq] at hcs
    exact ⟨c, by simp [identDoc, Doc.str, hne, Doc.firstChar, hcs], h.1⟩

/-- No object or callee `e` starts with a character that goes on with the sign of an operator. -/
theorem exists_firstChar_operandDoc (e : Expr) (h : e.isLegible = true) :
    ∃ c ∈ (operandDoc memberLevel e e.doc).firstChar, Edge.sign.Allows c := by
  unfold operandDoc
  split
  · exact ⟨'(', firstChar_enclose rfl, Edge.allows_of_isBreak rfl .sign⟩
  -- without parentheses the level is high enough, which leaves names, literals and what starts with
  -- an operand of the same kind
  next hlevel =>
    match e with
    | .ident name =>
      obtain ⟨c, hc, hstart⟩ := exists_firstChar_identDoc h
      exact ⟨c, hc, allows_of_isNameStart hstart⟩
    | .int i =>
      have hneg : ¬ i < 0 := fun hneg => hlevel (by simp [Expr.level, hneg]; decide)
      have hpositive : ¬ i.toInt < 0 := by rwa [Int64.lt_iff_toInt_lt, Int64.toInt_zero] at hneg
      simpa [Expr.doc, constantDoc, Doc.firstChar, Decimal.intText, hpositive] using
        allows_digitsText i.toInt.natAbs
    | .text s =>
      exact ⟨'"', by simp [Expr.doc, textDoc, Doc.firstChar, Text.quote],
        Edge.allows_of_isBreak rfl .sign⟩
    | .boolean true => exact ⟨'t', rfl, allows_of_isNameStart rfl⟩
    | .boolean false => exact ⟨'f', rfl, allows_of_isNameStart rfl⟩
    | .undefined => exact ⟨'u', rfl, allows_of_isNameStart rfl⟩
    | .array items => exact ⟨'[', firstChar_enclose rfl, Edge.allows_of_isBreak rfl .sign⟩
    | .object [] => exact ⟨'\x7b', rfl, Edge.allows_of_isBreak rfl .sign⟩
    | .object (f :: fs) => exact ⟨'\x7b', firstChar_enclose rfl, Edge.allows_of_isBreak rfl .sign⟩
    | .access e _ =>
      simp only [Expr.isLegible, Bool.and_eq_true] at h
      exact exists_firstChar_cat (exists_firstChar_operandDoc e h.1.1)
    | .index e _ | .call e _ =>
      simp only [Expr.isLegible, Bool.and_eq_true] at h
      exact exists_firstChar_cat (exists_firstChar_operandDoc e h.1)
    | .number _ => cases h
    | .unary .. => exact absurd (show unaryLevel < memberLevel by decide) hlevel
    | .binary op .. =>
      exact absurd (show binaryLevel op < memberLevel by cases op <;> decide) hlevel
    | .conditional .. => exact absurd (show conditionalLevel < memberLevel by decide) hlevel
    | .arrow .. => exact absurd (show 1 < memberLevel by decide) hlevel
    | .new .. => exact absurd (show 17 < memberLevel by decide) hlevel

theorem written_unary {e : Expr} (h : e.Written)
    (hfirst : ∃ c ∈ (operandDoc memberLevel e e.doc).firstChar, Edge.sign.Allows c)
    (op : UnaryOp) : (Expr.unary op e).Written := by
  obtain ⟨ts, hlex, hderives, -⟩ := h.operand_numeral memberLevel
  have hop : unaryOp? (unarySign op) = some op := by cases op <;> rfl
  have hlexes := (Lexes.text (cuts_unarySign op)).cat hlex hfirst
  have hunary := Derives.unaryOp hop (hderives.unary (by decide))
  refine ⟨_, hlexes, .ofUnary hunary (show unaryLevel < memberLevel by decide), fun _ => ?_⟩
  cases op <;> simp [unarySign]

/-- `binarySign` between blanks. -/
theorem lexes_binarySign (op : BinaryOp) :
    Lexes .closed (.text (" " ++ binarySign op ++ " ")) [.sign (binarySign op)] := by
  cases op <;> exact .blank rfl

theorem written_binary {l r : Expr} (hl : l.Written) (hr : r.Written) (op : BinaryOp) :
    (Expr.binary op l r).Written := by
  obtain ⟨ts, hlex, hderives, hbrace⟩ := hl.operand_numeral unaryLevel
  obtain ⟨us, hlex', hderives', -⟩ := hr.operand_numeral unaryLevel
  obtain ⟨k, hk, hop⟩ := binaryOp?_binarySign op
  have hleft := hderives.unary (Nat.le_refl _)
  have hright := hderives'.unary (Nat.le_refl _)
  have hbinary : Derives (.binary 6) (ts ++ .sign (binarySign op) :: us)
      (.binary op l.normal r.normal) :=
    (Derives.binaryOp hop (hleft.unary.loosen (Nat.zero_le _))
      (hright.unary.loosen (Nat.zero_le _))).loosen hk
  have hlexes := hlex.cat_text ((lexes_binarySign op).cat_closed hlex') (by cases op <;> rfl)
  refine ⟨_, hlexes, .ofBinary hbinary ?_, fun h => head?_append_ne hleft rfl (hbrace h)⟩
  show binaryLevel op < unaryLevel
  cases op <;> decide

theorem written_conditional {t y n : Expr} (ht : t.Written) (hy : y.Written) (hn : n.Written) :
    (Expr.conditional t y n).Written := by
  obtain ⟨ts, hlex, hderives, hbrace⟩ := ht.operand_numeral (conditionalLevel + 1)
  obtain ⟨us, hlexYes, hyes, -⟩ := hy.operand_numeral conditionalLevel
  obtain ⟨vs, hlexNo, hno, -⟩ := hn.operand_numeral conditionalLevel
  have htest := hderives.binary (Nat.le_refl _)
  have hquestion : Lexes .closed (.text " ? ") [.sign "?"] := .blank rfl
  have hcolon : Lexes .closed (.text " : ") [.sign ":"] := .blank rfl
  have hlexes := hlex.cat_text
    (hquestion.cat_closed (hlexYes.cat_text (hcolon.cat_closed hlexNo) rfl)) rfl
  exact ⟨_, hlexes, .ofAssignment (htest.choice hyes.assignment hno.assignment).conditional
    (Nat.le_refl _), fun h => head?_append_ne htest rfl (hbrace h)⟩

/-! ### Functions -/

theorem written_arrow {params : List String} {body : List Stmt}
    (hparams : ∀ p ∈ params, isNameHere p = true)
    (hbody : Spells .body .numeral (bodyDoc (stmtDocs body)) (stmtsNormal body)) :
    (Expr.arrow params body).Written := by
  obtain ⟨us, hlex, hderives⟩ := hbody
  have harrow : Lexes .closed (.text " => ") [.sign "=>"] := .blank rfl
  have hlevel : 1 ≤ conditionalLevel := by decide
  by_cases hone : ∃ p, params = [p]
  · obtain ⟨p, rfl⟩ := hone
    have hlexes := (lexes_identDoc (hparams p (List.mem_cons_self ..))).cat_text
      (harrow.cat_closed hlex) rfl
    exact ⟨_, hlexes, .ofAssignment ((derives_ident p).arrowOne hderives) hlevel, by simp⟩
  · obtain ⟨ts, hlex', hderives'⟩ := spells_commas .name identDoc escapeIdent params
      fun p hp => ⟨_, (lexes_identDoc (hparams p hp)).toNumeral, derives_ident p⟩
    have hdoc : paramsDoc params = .parens (commas (params.map identDoc)) := by
      unfold paramsDoc
      split
      · exact absurd ⟨_, rfl⟩ hone
      · rfl
    have hlexes := hlex'.parens.cat_closed (harrow.cat_closed hlex)
    rw [← hdoc] at hlexes
    refine ⟨_, hlexes, .ofAssignment ?_ hlevel, by simp⟩
    simpa [Expr.normal] using hderives'.arrow hderives

/-! ### Parts of object literals -/

theorem spells_field {e : Expr} {key : String} (hkey : isNameOutside key = true) (h : e.Written) :
    Spells .field .numeral (Field.field key e).doc (Field.field key e).normal := by
  obtain ⟨ts, hlex, hderives⟩ := spells_outerName hkey
  obtain ⟨us, hlex', hderives'⟩ := h.spells
  have hcolon : Lexes .closed (.text ": ") [.sign ":"] := .blank rfl
  exact ⟨_, hlex.cat_text (hcolon.cat_closed hlex') rfl, hderives.field hderives'⟩

theorem spells_spread {e : Expr} (h : e.Written) :
    Spells .field .numeral (Field.spread e).doc (Field.spread e).normal := by
  obtain ⟨ts, hlex, hderives, -⟩ := h.operand_numeral conditionalLevel
  have hdots : Lexes .closed (.text "...") [.sign "..."] := .sign [] rfl rfl (by decide)
  exact ⟨_, hdots.cat_closed hlex, hderives.assignment.spread⟩

end TailLoop.Script
