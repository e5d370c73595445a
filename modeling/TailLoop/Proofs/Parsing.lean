import TailLoop.Proofs.Grammar

/-!
# Scripts can be read in one way only

A recursive-descent parser, with fuel, finds the tree of every derivation. So a token list has at
most one tree.

* `Derives.opens`: which tokens a part of a program starts with.
* `Derives.found`: the parser finds the tree of a derivation, whatever follows it, as long as what
  follows does not go on with it.
* `Derives.unique`: a token list has one tree.
-/

namespace TailLoop.Script

/-! ## First tokens -/

/-- A primary expression can start with the token. -/
def Token.opensPrimary : Token → Bool
  | .word w => w ∉ keywords || w ∈ ["true", "false", "undefined"]
  | .numeral n => n < leastSize
  | .text _ => true
  | .sign s => s ∈ ["(", "[", "\x7b"]

/-- An object or a callee can start with `t`; `new` is one of the words that it can start with. -/
def Token.opensMember (t : Token) : Bool := t.opensPrimary || t == .word "new"

/-- An expression can start with `t`. -/
def Token.opensExpr (t : Token) : Bool :=
  t.opensMember || t ∈ [.sign "!", .sign "-", .sign "~"]

/-- The token is a `word`. -/
def Token.isWord : Token → Bool
  | .word _ => true
  | _ => false

/-- The token is a `word` or a `text`. -/
def Token.isLabel : Token → Bool
  | .word _ | .text _ => true
  | _ => false

/-- The words that statements start with; all of them are `keywords`. -/
def statementWords : List String := ["const", "let", "if", "while", "continue", "return", "throw"]

namespace Category

/-- A part of a program can start with the token. Nothing is said of a `Category` that can be
empty. -/
def opens : Category → Token → Bool
  | .name, t => t.isWord
  | .label, t | .exportName, t => t.isLabel
  | .primary, t => t.opensPrimary
  | .member _, t => t.opensMember
  | .unary, t | .binary _, t | .conditional, t | .assignment, t | .body, t => t.opensExpr
  | .field, t => t.isLabel || t == .sign "..."
  | .series item, t => item.opens t
  | .block, t => t == .sign "\x7b"
  | .arms, t => t == .word "if"
  | .stmt, t => t.opensExpr || statementWords.any (t == .word ·)
  | .importLine, t => t == .word "import"
  | .exportLine, t => t == .word "export"
  | .commas _, _ | .many _, _ | .module, _ => false

/-- A part of a program can have no tokens. -/
def mayBeEmpty : Category → Bool
  | .commas _ | .many _ | .module => true
  | .series item => item.mayBeEmpty
  | _ => false

end Category

/-- What follows `u` does not change its first token. -/
theorem any_head?_append {p : Token → Bool} {u v : List Token} (h : u.head?.any p = true) :
    (u ++ v).head?.any p = true := by
  cases u with
  | nil => cases h
  | cons t u => exact h

/-- Every token in `p` is in `q`, so the first one of `u` is. -/
theorem any_head?_mono {p q : Token → Bool} {u : List Token} (h : u.head?.any p = true)
    (hpq : ∀ t, p t = true → q t = true) : u.head?.any q = true := by
  cases u with
  | nil => cases h
  | cons t u => exact hpq t h

/-- A part of a program that cannot be empty starts with a token that `opens` its `Category`. -/
theorem Derives.opens {c : Category} {u : List Token} {a : c.Tree} (h : Derives c u a)
    (hc : c.mayBeEmpty = Bool.false) : u.head?.any c.opens = Bool.true := by
  induction h with
  | name | labelWord | labelText | text => rfl
  | ident h =>
    cases h with
    | name hw => simp [Category.opens, Token.opensPrimary, hw]
  | int hn => simpa [Category.opens, Token.opensPrimary] using hn
  | true | false | undefined | array | object | parens =>
    simp [Category.opens, Token.opensPrimary]
  | new | least | arrow | block | spread =>
    simp [Category.opens, Token.opensExpr, Token.opensMember, Token.opensPrimary]
  -- the signs of operators are looked up in the table that the parser uses
  | unaryOp hs =>
    unfold unaryOp? at hs
    split at hs <;> simp_all [Category.opens, Token.opensExpr]
  | const | declare | declareAs | loop | again | ret | retUndefined | throw | lastArm | arm
  | importLine | exportLine | exportFrom =>
    simp [Category.opens, statementWords]
  | primary _ ih => exact any_head?_mono (ih rfl) fun t ht => Bool.or_eq_true_iff.2 (.inl ht)
  | member _ ih => exact any_head?_mono (ih rfl) fun t ht => Bool.or_eq_true_iff.2 (.inl ht)
  | unary _ ih | tighter _ ih | binary _ ih | conditional _ ih | concise _ _ ih
  | exportName _ ih => exact ih rfl
  | one _ ih => exact ih hc
  | more _ _ ih => exact any_head?_append (ih hc)
  -- what starts with another part starts like that part
  | access _ ih | index _ _ ih | call _ _ ih | binaryOp _ _ _ ih | choice _ _ _ ih
  | exportAs _ _ ih => exact any_head?_append (ih rfl)
  | field _ _ ih =>
    exact any_head?_append (any_head?_mono (ih rfl) fun t ht => Bool.or_eq_true_iff.2 (.inl ht))
  | expr _ _ ih =>
    exact any_head?_append (any_head?_mono (ih rfl) fun t ht => Bool.or_eq_true_iff.2 (.inl ht))
  | arrowOne h =>
    cases h with
    | name hw => simp [Category.opens, Token.opensExpr, Token.opensMember, Token.opensPrimary, hw]
  | assign h =>
    cases h with
    | name hw => simp [Category.opens, Token.opensExpr, Token.opensMember, Token.opensPrimary, hw]
  | body h =>
    cases h with
    | block => simp [Category.opens, Token.opensExpr, Token.opensMember, Token.opensPrimary]
  | chain h =>
    cases h <;> simp [Category.opens, statementWords]
  | none | some | nil | cons | module => cases hc

/-! ## Parsing -/

/-- The rest of a token list behind the token `t`, or `none` if another is in front. -/
def expect (t : Token) : List Token → Option (List Token)
  | t' :: rest => if t' = t then some rest else none
  | [] => none

@[simp] theorem expect_cons (t : Token) (rest : List Token) : expect t (t :: rest) = some rest := by
  simp [expect]

mutual

/-- Reads a part of a program from the front of a token list, with fuel for so many steps. -/
def parse : Nat → (c : Category) → List Token → Option (c.Tree × List Token)
  | 0, _, _ => none
  | _ + 1, .name, ts =>
    match ts with
    | .word w :: rest => some (w, rest)
    | _ => none
  | _ + 1, .label, ts =>
    match ts with
    | .word w :: rest => some (w, rest)
    | .text s :: rest => some (s, rest)
    | _ => none
  | n + 1, .primary, ts =>
    match ts with
    | .numeral k :: rest => some (.int (Int64.ofNat k), rest)
    | .text s :: rest => some (.text s, rest)
    | .word "true" :: rest => some (.boolean true, rest)
    | .word "false" :: rest => some (.boolean false, rest)
    | .word "undefined" :: rest => some (.undefined, rest)
    | .word w :: rest => some (.ident w, rest)
    | .sign "[" :: rest => do
      let (es, rest) ← parse n (.commas .assignment) rest
      let rest ← expect (.sign "]") rest
      return (.array es, rest)
    | .sign "\x7b" :: rest => do
      let (fs, rest) ← parse n (.commas .field) rest
      let rest ← expect (.sign "\x7d") rest
      return (.object fs, rest)
    | .sign "(" :: rest => do
      let (e, rest) ← parse n .assignment rest
      let rest ← expect (.sign ")") rest
      return (e, rest)
    | _ => none
  | n + 1, .member calls, ts =>
    match ts with
    | .word "new" :: rest => do
      let (f, rest) ← parse n (.member false) rest
      let rest ← expect (.sign "(") rest
      let (es, rest) ← parse n (.commas .assignment) rest
      let rest ← expect (.sign ")") rest
      suffixes n calls (.new f es) rest
    | ts => do
      let (e, rest) ← parse n .primary ts
      suffixes n calls e rest
  | n + 1, .unary, ts =>
    if ts.take 2 = [.sign "-", .numeral leastSize] then some (.int Int64.minValue, ts.drop 2)
    else
      match ts with
      | .sign s :: rest =>
        match unaryOp? s with
        | some op => do
          let (e, rest) ← parse n .unary rest
          return (applied op e, rest)
        | none => parse n (.member true) (.sign s :: rest)
      | ts => parse n (.member true) ts
  | n + 1, .binary 0, ts => parse n .unary ts
  | n + 1, .binary (k + 1), ts => do
    let (e, rest) ← parse n (.binary k) ts
    climb n k e rest
  | n + 1, .conditional, ts => do
    let (t, rest) ← parse n (.binary 6) ts
    match rest with
    | .sign "?" :: rest =>
      let (y, rest) ← parse n .assignment rest
      let rest ← expect (.sign ":") rest
      let (e, rest) ← parse n .assignment rest
      return (.conditional t y e, rest)
    | rest => return (t, rest)
  -- the parameters of a function look like an expression up to the arrow behind them
  | n + 1, .assignment, ts =>
    match (parse n .conditional ts).filter fun p => p.2.head? != some (.sign "=>") with
    | some result => some result
    | none =>
      match ts with
      | .sign "(" :: rest => do
        let (ps, rest) ← parse n (.commas .name) rest
        let rest ← expect (.sign ")") rest
        let rest ← expect (.sign "=>") rest
        let (b, rest) ← parse n .body rest
        return (.arrow ps b, rest)
      | ts => do
        let (p, rest) ← parse n .name ts
        let rest ← expect (.sign "=>") rest
        let (b, rest) ← parse n .body rest
        return (.arrow [p] b, rest)
  | n + 1, .field, ts =>
    match ts with
    | .sign "..." :: rest => do
      let (e, rest) ← parse n .assignment rest
      return (.spread e, rest)
    | ts => do
      let (k, rest) ← parse n .label ts
      let rest ← expect (.sign ":") rest
      let (e, rest) ← parse n .assignment rest
      return (.field k e, rest)
  | n + 1, .series item, ts => do
    let (a, rest) ← parse n item ts
    match rest with
    | .sign "," :: rest =>
      let (as, rest) ← parse n (.series item) rest
      return (a :: as, rest)
    | rest => return ([a], rest)
  | n + 1, .commas item, ts =>
    if ts.head?.any item.opens then parse n (.series item) ts else some ([], ts)
  | n + 1, .body, ts =>
    if ts.head? = some (.sign "\x7b") then parse n .block ts
    else do
      let (e, rest) ← parse n .assignment ts
      return ([.ret e], rest)
  | n + 1, .block, ts => do
    let rest ← expect (.sign "\x7b") ts
    let (b, rest) ← parse n (.many .stmt) rest
    let rest ← expect (.sign "\x7d") rest
    return (b, rest)
  | n + 1, .arms, ts => do
    let rest ← expect (.word "if") ts
    let rest ← expect (.sign "(") rest
    let (e, rest) ← parse n .assignment rest
    let rest ← expect (.sign ")") rest
    let (b, rest) ← parse n .block rest
    match rest with
    | .word "else" :: rest =>
      let (as, rest) ← parse n .arms rest
      return ((e, b) :: as, rest)
    | rest => return ([(e, b)], rest)
  | n + 1, .stmt, ts =>
    match ts with
    | .word "const" :: rest => do
      let (x, rest) ← parse n .name rest
      let rest ← expect (.sign "=") rest
      let (e, rest) ← parse n .assignment rest
      let rest ← expect (.sign ";") rest
      return (.const x e, rest)
    | .word "let" :: rest => do
      let (x, rest) ← parse n .name rest
      match rest with
      | .sign ";" :: rest => return (.declare x none, rest)
      | rest =>
        let rest ← expect (.sign "=") rest
        let (e, rest) ← parse n .assignment rest
        let rest ← expect (.sign ";") rest
        return (.declare x (some e), rest)
    | .word "if" :: rest => do
      let (as, rest) ← parse n .arms (.word "if" :: rest)
      return (.chain as, rest)
    | .word "while" :: rest => do
      let rest ← expect (.sign "(") rest
      let rest ← expect (.word "true") rest
      let rest ← expect (.sign ")") rest
      let (b, rest) ← parse n .block rest
      return (.loop b, rest)
    | .word "continue" :: rest => do
      let rest ← expect (.sign ";") rest
      return (.again, rest)
    | .word "return" :: .sign ";" :: rest => return (.retUndefined, rest)
    | .word "return" :: rest => do
      let (e, rest) ← parse n .assignment rest
      let rest ← expect (.sign ";") rest
      return (.ret e, rest)
    | .word "throw" :: rest => do
      let (e, rest) ← parse n .assignment rest
      let rest ← expect (.sign ";") rest
      return (.throw e, rest)
    -- what is assigned to looks like an expression
    | ts => do
      let (e, rest) ← parse n .assignment ts
      match e, rest with
      | .ident x, .sign "=" :: rest =>
        let (e, rest) ← parse n .assignment rest
        let rest ← expect (.sign ";") rest
        return (.assign x e, rest)
      | e, rest =>
        let rest ← expect (.sign ";") rest
        return (.expr e, rest)
  | n + 1, .many item, ts =>
    if ts.head?.any item.opens then do
      let (a, rest) ← parse n item ts
      let (as, rest) ← parse n (.many item) rest
      return (a :: as, rest)
    else some ([], ts)
  | n + 1, .importLine, ts => do
    let rest ← expect (.word "import") ts
    let rest ← expect (.sign "*") rest
    let rest ← expect (.word "as") rest
    let (x, rest) ← parse n .name rest
    match rest with
    | .word "from" :: .text path :: .sign ";" :: rest => return (⟨x, path⟩, rest)
    | _ => none
  | n + 1, .exportName, ts => do
    let (x, rest) ← parse n .label ts
    match rest with
    | .word "as" :: rest =>
      let (p, rest) ← parse n .label rest
      return ((x, some p), rest)
    | rest => return ((x, none), rest)
  | n + 1, .exportLine, ts => do
    let rest ← expect (.word "export") ts
    let rest ← expect (.sign "\x7b") rest
    let (names, rest) ← parse n (.commas .exportName) rest
    match rest with
    | .sign "\x7d" :: .word "from" :: .text path :: .sign ";" :: rest =>
      return (⟨names, some path⟩, rest)
    | .sign "\x7d" :: .sign ";" :: rest => return (⟨names, none⟩, rest)
    | _ => none
  | n + 1, .module, ts => do
    let (is, rest) ← parse n (.many .importLine) ts
    let (ss, rest) ← parse n (.many .stmt) rest
    let (es, rest) ← parse n (.many .exportLine) rest
    return (⟨is, ss, es⟩, rest)

/-- Goes on behind the object or callee `e`; arguments only belong to it if `calls` says so. -/
def suffixes : Nat → Bool → Expr → List Token → Option (Expr × List Token)
  | 0, _, _, _ => none
  | n + 1, calls, e, ts =>
    match ts with
    | .sign "." :: .word p :: rest => suffixes n calls (.access e p) rest
    | .sign "[" :: rest => do
      let (i, rest) ← parse n .assignment rest
      let rest ← expect (.sign "]") rest
      suffixes n calls (.index e i) rest
    | .sign "(" :: rest =>
      if calls then do
        let (es, rest) ← parse n (.commas .assignment) rest
        let rest ← expect (.sign ")") rest
        suffixes n calls (.call e es) rest
      else some (e, .sign "(" :: rest)
    | ts => some (e, ts)

/-- Goes on behind an operand with operators that bind one step more loosely than `k`. -/
def climb : Nat → Nat → Expr → List Token → Option (Expr × List Token)
  | 0, _, _, _ => none
  | n + 1, k, l, ts =>
    match ts with
    | .sign s :: rest =>
      match (binaryOp? s).filter fun p => p.2 == k + 1 with
      | some (op, _) => do
        let (r, rest) ← parse n (.binary k) rest
        climb n k (.binary op l r) rest
      | none => some (l, .sign s :: rest)
    | ts => some (l, ts)

end

/-! ## What can follow -/

/-- How loosely a token holds on to an expression before it, or `9` if it does not. -/
def Token.grip : Token → Nat
  | .sign s =>
    if s ∈ [".", "[", "("] then 0
    else if s = "?" then 7
    else if s = "=>" then 8
    else match binaryOp? s with
      | some (_, k) => k
      | none => 9
  | _ => 9

/-- The token ends a part of a program before it. -/
def Category.stops : Category → Token → Bool
  | .member _, t | .unary, t => 0 < t.grip
  | .binary k, t => k < t.grip
  | .conditional, t | .assignment, t | .body, t | .field, t => 8 < t.grip
  | .series item, t => item.stops t && t != .sign ","
  | .commas item, t => item.stops t && t != .sign "," && !item.opens t
  | .arms, t | .stmt, t => t != .word "else"
  | .many item, t => item.stops t && !item.opens t
  | .exportName, t => t != .word "as"
  | .module, _ => false
  | .name, _ | .label, _ | .primary, _ | .block, _ | .importLine, _ | .exportLine, _ => true

/-- The first token of `rest`, if there is one, ends a part of the category `c`. -/
def Stops (c : Category) (rest : List Token) : Prop := rest.head?.all c.stops = true

/-! ## Enough fuel -/

/-- `P` holds from some fuel on. -/
def Enough (P : Nat → Prop) : Prop := ∃ least, ∀ n, least ≤ n → P n

namespace Enough

variable {P Q : Nat → Prop}

/-- What holds with `n + 1`, whatever `n`, holds from `1` on. -/
theorem of_succ (h : ∀ n, P (n + 1)) : Enough P := by
  refine ⟨1, fun n hn => ?_⟩
  obtain ⟨m, rfl⟩ := Nat.exists_eq_add_of_le' hn
  exact h m

/-- One more step of fuel, from `P n` to `Q (n + 1)`. -/
theorem step (h : Enough P) (hs : ∀ n, P n → Q (n + 1)) : Enough Q := by
  obtain ⟨least, h⟩ := h
  refine ⟨least + 1, fun n hn => ?_⟩
  obtain ⟨m, rfl⟩ := Nat.exists_eq_add_of_le' (Nat.le_trans (Nat.le_add_left 1 least) hn)
  exact hs m (h m (by omega))

theorem mono (h : Enough P) (hPQ : ∀ n, P n → Q n) : Enough Q := by
  obtain ⟨least, h⟩ := h
  exact ⟨least, fun n hn => hPQ n (h n hn)⟩

theorem and (hP : Enough P) (hQ : Enough Q) : Enough fun n => P n ∧ Q n := by
  obtain ⟨least, hP⟩ := hP
  obtain ⟨least', hQ⟩ := hQ
  exact ⟨max least least', fun n hn => ⟨hP n (by omega), hQ n (by omega)⟩⟩

end Enough

/-! ## Finding the tree of a derivation -/

/-- The parser finds the tree of `u`. For member access and operators, that is the start of a larger
expression, and it goes on with what follows. -/
def Found : (c : Category) → List Token → c.Tree → Prop
  | .member calls, u, e => ∀ rest out, Enough (fun n => suffixes n calls e rest = some out) →
      Enough fun n => parse n (.member calls) (u ++ rest) = some out
  | .binary (k + 1), u, e => ∀ rest out, Stops (.binary k) rest →
      Enough (fun n => climb n k e rest = some out) →
      Enough fun n => parse n (.binary (k + 1)) (u ++ rest) = some out
  | c, u, a => ∀ rest, Stops c rest → Enough fun n => parse n c (u ++ rest) = some (a, rest)

/-- `Token.grip` of the sign of an operator is how loosely the operator binds. -/
theorem grip_of_binaryOp? {s : String} {op : BinaryOp} {k : Nat} (h : binaryOp? s = some (op, k)) :
    (Token.sign s).grip = k := by
  unfold binaryOp? at h
  split at h <;> simp at h <;> obtain ⟨rfl, rfl⟩ := h <;> rfl

/-- `suffixes` adds nothing to `e` where `rest` ends it. -/
theorem suffixes_stop {calls : Bool} {e : Expr} {rest : List Token}
    (hr : Stops (.member calls) rest) (n : Nat) :
    suffixes (n + 1) calls e rest = some (e, rest) := by
  unfold suffixes
  split <;> simp_all [Stops, Category.stops, Token.grip]

/-- `climb` adds nothing to `e` where `rest` ends it. -/
theorem climb_stop {k : Nat} {e : Expr} {rest : List Token} (hr : Stops (.binary (k + 1)) rest)
    (n : Nat) : climb (n + 1) k e rest = some (e, rest) := by
  unfold climb
  split
  next s rest =>
    cases hs : binaryOp? s with
    | none => simp
    | some p =>
      have hgrip := grip_of_binaryOp? hs
      have hlt : k + 1 < p.2 := by simpa [Stops, Category.stops, hgrip] using hr
      have hne : (p.2 == k + 1) = false := by simp; omega
      simp [Option.filter, hne]
  · rfl

/-- A token that ends `c` may end another category `c'` too. -/
theorem Stops.mono {c c' : Category} {rest : List Token} (h : Stops c rest)
    (hc : ∀ t, c.stops t = true → c'.stops t = true) : Stops c' rest := by
  cases rest with
  | nil => rfl
  | cons t rest => exact hc t h

namespace Found

variable {u : List Token} {e : Expr}

/-- If `rest` ends the part `u`, the parser stops there, with the tree `a`. -/
theorem reaches {c : Category} {a : c.Tree} (h : Found c u a) (rest : List Token)
    (hr : Stops c rest) : Enough fun n => parse n c (u ++ rest) = some (a, rest) := by
  cases c with
  | member calls => exact h rest _ (.of_succ (suffixes_stop hr))
  | binary k =>
    cases k with
    | zero => exact h rest hr
    | succ k =>
      have htight : Stops (.binary k) rest := hr.mono fun t ht => by
        simp only [Category.stops, decide_eq_true_eq] at ht ⊢
        omega
      exact h rest _ htight (.of_succ (climb_stop hr))
  | _ => exact h rest hr

theorem ident {w : String} (hw : w ∉ keywords) : Found .primary [.word w] (.ident w) := by
  intro rest _
  have htrue : w ≠ "true" := fun h => hw (by simp [h, keywords])
  have hfalse : w ≠ "false" := fun h => hw (by simp [h, keywords])
  have hundefined : w ≠ "undefined" := fun h => hw (by simp [h, keywords])
  exact .of_succ fun n => by simp [parse]

theorem parens (h : Found .assignment u e) :
    Found .primary (.sign "(" :: u ++ [.sign ")"]) e := by
  intro rest _
  exact (h.reaches (.sign ")" :: rest) rfl).step fun n hn => by simp [parse, hn]

theorem primary {calls : Bool} (h : Found .primary u e)
    (hu : u.head?.any Token.opensPrimary = true) : Found (.member calls) u e := by
  intro rest out hout
  have hprimary : Enough fun n => parse n .primary (u ++ rest) = some (e, rest) :=
    h.reaches rest (by cases rest <;> rfl)
  refine (hprimary.and hout).step fun n ⟨hn, hout⟩ => ?_
  cases u with
  | nil => cases hu
  | cons t u =>
    have hnew : t ≠ .word "new" := by
      rintro rfl
      cases hu
    simp only [List.cons_append] at hn
    simp [parse, hn, hout, hnew]

theorem member (h : Found (.member true) u e)
    (hu : u.head?.any Token.opensMember = true) : Found .unary u e := by
  intro rest hr
  refine (h.reaches _ hr).step fun n hn => ?_
  cases u with
  | nil => cases hu
  | cons t u =>
    simp only [List.cons_append] at hn
    cases t with
    | sign s =>
      have hs : s ∈ ["(", "[", "\x7b"] := by
        simpa [Token.opensMember, Token.opensPrimary] using hu
      have hop : unaryOp? s = none := by
        simp only [List.mem_cons, List.not_mem_nil, or_false] at hs
        obtain rfl | rfl | rfl := hs <;> rfl
      have hminus : s ≠ "-" := by
        rintro rfl
        cases hop
      simp [parse, hn, hop, hminus]
    | _ => simp [parse, hn]

theorem unary (h : Found .unary u e) : Found (.binary 0) u e := by
  intro rest hr
  exact (h.reaches _ hr).step fun n hn => by simpa [parse] using hn

theorem tighter {k : Nat} (h : Found (.binary k) u e) : Found (.binary (k + 1)) u e := by
  intro rest out hr hout
  exact ((h.reaches _ hr).and hout).step fun n ⟨hn, hout⟩ => by simp [parse, hn, hout]

theorem binary {k : Nat} (h : Found (.binary 0) u e) : Found (.binary k) u e := by
  induction k with
  | zero => exact h
  | succ k ih => exact ih.tighter

/-- An expression before anything that is no operator, an arrow included, but no `?`. -/
theorem condition (h : Found (.binary 6) u e) (rest : List Token) (hr : Stops (.binary 6) rest)
    (hquestion : rest.head? ≠ some (.sign "?")) :
    Enough fun n => parse n .conditional (u ++ rest) = some (e, rest) := by
  refine (h.reaches _ hr).step fun n hn => ?_
  cases rest with
  | nil =>
    rw [List.append_nil] at hn ⊢
    simp [parse, hn]
  | cons t rest =>
    have ht : t ≠ .sign "?" := by simpa using hquestion
    simp [parse, hn, ht]

theorem conditional (h : Found .conditional u e) : Found .assignment u e := by
  intro rest hr
  refine (h.reaches _ hr).step fun n hn => ?_
  have harrow : rest.head? ≠ some (.sign "=>") := by
    intro heq
    simp [Stops, heq] at hr
    cases hr
  simp [parse, hn, Option.filter, harrow]

/-- A parenthesised expression or a name is found as an operand of operators of every `k`. -/
theorem operand {k : Nat} (h : Found .primary u e)
    (hu : u.head?.any Token.opensPrimary = true) : Found (.binary k) u e := by
  have hu' : u.head?.any Token.opensMember = true :=
    any_head?_mono hu fun t ht => Bool.or_eq_true_iff.2 (.inl ht)
  exact ((h.primary hu).member hu').unary.binary

theorem ofBinary (h : Found (.binary 6) u e) : Found .conditional u e := by
  intro rest hr
  have htight : Stops (.binary 6) rest := hr.mono fun t ht => by
    simp only [Category.stops, decide_eq_true_eq] at ht ⊢
    omega
  refine h.condition rest htight fun heq => ?_
  simp [Stops, heq] at hr
  cases hr

/-- A name that is no keyword is found as an expression. -/
theorem name {w : String} (hw : w ∉ keywords) : Found .assignment [.word w] (.ident w) :=
  ((ident hw).operand (by simp [Token.opensPrimary, hw])).ofBinary.conditional

end Found

/-! ## Parameters are no expression -/

section Parameters

variable {t : Token} {ts : List Token}

/-- Where no primary expression can be read from `t`, no expression without arrow can. -/
theorem conditional_eq_none (hnew : t ≠ .word "new") (hop : ∀ s, t = .sign s → unaryOp? s = none)
    (h : Enough fun n => parse n .primary (t :: ts) = none) :
    Enough fun n => parse n .conditional (t :: ts) = none := by
  have hmember : Enough fun n => parse n (.member true) (t :: ts) = none :=
    h.step fun n hn => by simp [parse, hn, hnew]
  have hunary : Enough fun n => parse n .unary (t :: ts) = none :=
    hmember.step fun n hn => by
      cases t with
      | sign s =>
        have hminus : s ≠ "-" := by
          rintro rfl
          cases hop _ rfl
        simp [parse, hn, hop s rfl, hminus]
      | _ => simp [parse, hn]
  have hbinary : ∀ k, Enough fun n => parse n (.binary k) (t :: ts) = none := by
    intro k
    induction k with
    | zero => exact hunary.step fun n hn => by simp [parse, hn]
    | succ k ih => exact ih.step fun n hn => by simp [parse, hn]
  exact (hbinary 6).step fun n hn => by simp [parse, hn]

/-- What is no expression in parentheses is no expression without arrow. -/
theorem conditional_paren_eq_none
    (h : Enough fun n => ((parse n .assignment ts).bind fun p => expect (.sign ")") p.2) = none) :
    Enough fun n => parse n .conditional (.sign "(" :: ts) = none := by
  refine conditional_eq_none (by simp) (fun s hs => by cases hs; rfl) (h.step fun n hn => ?_)
  cases hp : parse n .assignment ts with
  | none => simp [parse, hp]
  | some p =>
    rw [hp] at hn
    have hclose : expect (.sign ")") p.2 = none := hn
    simp [parse, hp, hclose]

/-- No expression starts with `)`. -/
theorem assignment_close_eq_none :
    Enough fun n => parse n .assignment (.sign ")" :: ts) = none := by
  have hconditional : Enough fun n => parse n .conditional (.sign ")" :: ts) = none :=
    conditional_eq_none (by simp) (fun s hs => by cases hs; rfl) (.of_succ fun n => by simp [parse])
  have hname : Enough fun n => parse n .name (.sign ")" :: ts) = none :=
    .of_succ fun n => by simp [parse]
  exact (hconditional.and hname).step fun n ⟨hn, hname⟩ => by simp [parse, hn, hname]

/-- Parameters in parentheses are read as an expression before an arrow, or not at all. Filtering by
what comes next tells both from an expression of its own. -/
theorem conditional_params {u v : List Token} {ps : List String}
    (h : Derives (.commas .name) u ps) :
    Enough fun n => (parse n .conditional (.sign "(" :: (u ++ .sign ")" :: .sign "=>" :: v))).filter
      (fun p => p.2.head? != some (.sign "=>")) = none := by
  -- no parameters and several ones are no expression in parentheses; a single one is, and only the
  -- arrow tells that it is a parameter
  cases h with
  | none =>
    refine (conditional_paren_eq_none ?_).mono fun n hn => by rw [hn, Option.filter_none]
    exact assignment_close_eq_none.mono fun n hn => by rw [List.nil_append, hn, Option.bind_none]
  | some h =>
    cases h with
    | one h =>
      cases h with
      | name hw =>
        have hbinary : Found (.binary 6) [.sign "(", .word _, .sign ")"] (.ident _) :=
          (Found.name hw).parens.operand rfl
        exact (hbinary.condition (.sign "=>" :: v) rfl (by simp)).mono fun n hn => by
          simp only [List.cons_append, List.nil_append] at hn ⊢
          rw [hn]
          rfl
    | @more _ _ w _ _ h =>
      cases h with
      | name hw =>
        refine (conditional_paren_eq_none ?_).mono fun n hn => by rw [hn, Option.filter_none]
        have hfirst := (Found.name hw).reaches
          (.sign "," :: (w ++ .sign ")" :: .sign "=>" :: v)) rfl
        refine hfirst.mono fun n hn => ?_
        simp only [List.cons_append, List.nil_append] at hn ⊢
        rw [hn]
        rfl

end Parameters

/-! ## All derivations -/

namespace Category

/-- The category can stand between commas. -/
def isItem : Category → Bool
  | .name | .exportName | .assignment | .field => true
  | _ => false

/-- The category can stand on lines of its own. -/
def isLine : Category → Bool
  | .stmt | .importLine | .exportLine => true
  | _ => false

/-- All lists in the category are lists of what can stand in them. -/
def isRegular : Category → Bool
  | .series item | .commas item => item.isItem
  | .many item => item.isLine
  | _ => true

theorem isRegular_of_isItem {c : Category} (hc : c.isItem = true) : c.isRegular = true := by
  cases c <;> first | rfl | cases hc

theorem isRegular_of_isLine {c : Category} (hc : c.isLine = true) : c.isRegular = true := by
  cases c <;> first | rfl | cases hc

end Category

/-- A part of a program that cannot be empty has a first token `t`, which `opens` it. -/
theorem Derives.exists_cons {c : Category} {u : List Token} {a : c.Tree} (h : Derives c u a)
    (hc : c.mayBeEmpty = Bool.false) : ∃ t v, u = t :: v ∧ c.opens t = Bool.true := by
  have hopens := h.opens hc
  cases u with
  | nil => cases hopens
  | cons t v => exact ⟨t, v, rfl, hopens⟩

/-- No expression starts with one of `statementWords`. -/
theorem ne_of_opensExpr {t : Token} (ht : t.opensExpr = true) :
    ∀ w ∈ statementWords, t ≠ .word w := by
  rintro w hw rfl
  simp only [statementWords, List.mem_cons, List.not_mem_nil, or_false] at hw
  obtain rfl | rfl | rfl | rfl | rfl | rfl | rfl := hw <;> cases ht

/-- `many item` is followed by what can start a line or by `rest`; both end `c`. -/
theorem Derives.stops_many {item c : Category} {u rest : List Token} {as : List item.Tree}
    (h : Derives (.many item) u as) (hitem : item.isLine = Bool.true) (hr : Stops c rest)
    (hc : ∀ t, item.opens t = Bool.true → c.stops t = Bool.true) : Stops c (u ++ rest) := by
  cases h with
  | nil => exact hr
  | cons h _ =>
    obtain ⟨t, u, rfl, ht⟩ := h.exists_cons (by cases item <;> first | rfl | cases hitem)
    exact hc t ht

/-- A line ends where the next one starts. -/
theorem stops_of_opens {item : Category} (hitem : item.isLine = true) {t : Token}
    (ht : item.opens t = true) : item.stops t = true := by
  cases item with
  | stmt =>
    have hne : t ≠ .word "else" := by
      rintro rfl
      cases ht
    simp [Category.stops, hne]
  | importLine | exportLine => rfl
  | _ => cases hitem

/-! ### Expressions -/

namespace Found

section Expressions

variable {u v w : List Token} {e i f t y n : Expr} {es : List Expr} {fs : List Field}
  {calls : Bool} {k : Nat}

theorem array (h : Found (.commas .assignment) u es) :
    Found .primary (.sign "[" :: u ++ [Token.sign "]"]) (.array es) := by
  intro rest _
  exact (h.reaches (.sign "]" :: rest) rfl).step fun n hn => by simp [parse, hn]

theorem object (h : Found (.commas .field) u fs) :
    Found .primary (.sign "\x7b" :: u ++ [Token.sign "\x7d"]) (.object fs) := by
  intro rest _
  exact (h.reaches (.sign "\x7d" :: rest) rfl).step fun n hn => by simp [parse, hn]

theorem access (h : Found (.member calls) u e) (p : String) :
    Found (.member calls) (u ++ [Token.sign ".", .word p]) (.access e p) := by
  intro rest out hout
  have hsuffix : Enough fun n =>
      suffixes n calls e (.sign "." :: .word p :: rest) = some out :=
    hout.step fun n hn => by simpa [suffixes] using hn
  simpa using h _ out hsuffix

theorem index (h : Found (.member calls) u e) (h' : Found .assignment v i) :
    Found (.member calls) (u ++ (.sign "[" :: v ++ [Token.sign "]"])) (.index e i) := by
  intro rest out hout
  have hsuffix : Enough fun n =>
      suffixes n calls e (.sign "[" :: (v ++ .sign "]" :: rest)) = some out :=
    ((h'.reaches (.sign "]" :: rest) rfl).and hout).step
      fun n ⟨hn, hout⟩ => by simp [suffixes, hn, hout]
  simpa using h _ out hsuffix

/-- The callee behind `new` ends at the first parenthesis. -/
theorem new (h : Found (.member false) u f) (h' : Found (.commas .assignment) v es) :
    Found (.member calls) (.word "new" :: u ++ (.sign "(" :: v ++ [Token.sign ")"]))
      (.new f es) := by
  intro rest out hout
  have hcallee := h (.sign "(" :: (v ++ .sign ")" :: rest)) _
    (.of_succ fun n => by simp [suffixes]; rfl)
  have hargs := h'.reaches (.sign ")" :: rest) rfl
  exact ((hcallee.and hargs).and hout).step fun n ⟨⟨hn, hargs⟩, hout⟩ => by
    simp [parse, hn, hargs, hout]

theorem call (h : Found (.member true) u f) (h' : Found (.commas .assignment) v es) :
    Found (.member true) (u ++ (.sign "(" :: v ++ [Token.sign ")"])) (.call f es) := by
  intro rest out hout
  have hsuffix : Enough fun n =>
      suffixes n true f (.sign "(" :: (v ++ .sign ")" :: rest)) = some out :=
    ((h'.reaches (.sign ")" :: rest) rfl).and hout).step
      fun n ⟨hn, hout⟩ => by simp [suffixes, hn, hout]
  simpa using h _ out hsuffix

/-- An operator of one operand, unless it is the sign of the least number. -/
theorem unaryOp {s : String} {op : UnaryOp} (hs : unaryOp? s = some op) (h : Found .unary u e)
    (hu : u.head?.any Token.opensExpr = true) :
    Found .unary (.sign s :: u) (applied op e) := by
  intro rest hr
  cases u with
  | nil => cases hu
  | cons t u =>
    have hleast : t ≠ .numeral leastSize := by
      rintro rfl
      cases hu
    refine (h.reaches _ hr).step fun n hn => ?_
    rw [List.cons_append] at hn
    simp [parse, hs, hn, hleast]

/-- The left operand ends at the operator `op`, and the parser climbs on from there. -/
theorem binaryOp {s : String} {op : BinaryOp} (hs : binaryOp? s = some (op, k + 1))
    (h : Found (.binary (k + 1)) u e) (h' : Found (.binary k) v i) :
    Found (.binary (k + 1)) (u ++ .sign s :: v) (.binary op e i) := by
  intro rest out hr hout
  have hgrip : Stops (.binary k) (.sign s :: (v ++ rest)) := by
    simp [Stops, Category.stops, grip_of_binaryOp? hs]
  have hclimb : Enough fun n => climb n k e (.sign s :: (v ++ rest)) = some out :=
    ((h'.reaches _ hr).and hout).step fun n ⟨hn, hout⟩ => by
      simp [climb, hs, Option.filter, hn, hout]
  simpa using h _ out hgrip hclimb

theorem choice (ht : Found (.binary 6) u t) (hy : Found .assignment v y)
    (hn : Found .assignment w n) :
    Found .conditional (u ++ .sign "?" :: (v ++ .sign ":" :: w)) (.conditional t y n) := by
  intro rest hr
  have htest := ht.reaches (.sign "?" :: (v ++ .sign ":" :: (w ++ rest))) rfl
  have hyes := hy.reaches (.sign ":" :: (w ++ rest)) rfl
  have hno := hn.reaches _ hr
  exact ((htest.and hyes).and hno).step fun n ⟨⟨hn, hyes⟩, hno⟩ => by
    simp [parse, hn, hyes, hno]

end Expressions

/-! ### Functions -/

section Functions

variable {u v : List Token} {b : List Stmt} {e : Expr}

/-- A single parameter `p` is an expression too, but for the arrow behind it. -/
theorem arrowOne {p : String} (hp : p ∉ keywords) (h : Found .body v b) :
    Found .assignment (.word p :: .sign "=>" :: v) (.arrow [p] b) := by
  intro rest hr
  have hbinary : Found (.binary 6) [.word p] (.ident p) :=
    (ident hp).operand (by simp [Token.opensPrimary, hp])
  have hcond := hbinary.condition (.sign "=>" :: (v ++ rest)) rfl (by simp)
  have hname : Enough fun n =>
      parse n .name (.word p :: .sign "=>" :: (v ++ rest)) =
        some (p, .sign "=>" :: (v ++ rest)) :=
    .of_succ fun n => by simp [parse]
  have hbody := h.reaches _ hr
  refine ((hcond.and hname).and hbody).step fun n ⟨⟨hn, hname⟩, hbody⟩ => ?_
  rw [List.singleton_append] at hn
  simp [parse, hn, hname, hbody, Option.filter]

theorem arrow {ps : List String} (hps : Derives (.commas .name) u ps)
    (h : Found (.commas .name) u ps) (h' : Found .body v b) :
    Found .assignment (.sign "(" :: u ++ .sign ")" :: .sign "=>" :: v) (.arrow ps b) := by
  intro rest hr
  have hcond := conditional_params (v := v ++ rest) hps
  have hparams := h.reaches (.sign ")" :: .sign "=>" :: (v ++ rest)) rfl
  have hbody := h'.reaches _ hr
  exact ((hcond.and hparams).and hbody).step fun n ⟨⟨hn, hparams⟩, hbody⟩ => by
    simp [parse, hn, hparams, hbody]

theorem concise (h : Found .assignment u e) (hne : u ≠ [])
    (hbrace : u.head? ≠ some (.sign "\x7b")) : Found .body u [.ret e] := by
  intro rest hr
  obtain ⟨t, u, rfl⟩ := List.exists_cons_of_ne_nil hne
  refine (h.reaches _ hr).step fun n hn => ?_
  have ht : t ≠ .sign "\x7b" := by simpa using hbrace
  rw [List.cons_append] at hn
  simp [parse, hn, ht]

theorem body (h : Found .block u b) (hu : u.head? = some (.sign "\x7b")) : Found .body u b := by
  intro rest _
  have hblock := h.reaches rest (by cases rest <;> rfl)
  refine hblock.step fun n hn => ?_
  have hbrace : (u ++ rest).head? = some (.sign "\x7b") := by simp [hu]
  simp [parse, hbrace, hn]

theorem block (h : Found (.many .stmt) u b) :
    Found .block (.sign "\x7b" :: u ++ [Token.sign "\x7d"]) b := by
  intro rest _
  exact (h.reaches (.sign "\x7d" :: rest) rfl).step fun n hn => by simp [parse, hn]

theorem field {k : String} (h : Found .label u k) (hu : u.head?.any Token.isLabel = true)
    (h' : Found .assignment v e) : Found .field (u ++ .sign ":" :: v) (.field k e) := by
  intro rest hr
  cases u with
  | nil => cases hu
  | cons t u =>
    have hspread : t ≠ .sign "..." := by
      rintro rfl
      cases hu
    have hlabel := h.reaches (.sign ":" :: (v ++ rest)) rfl
    refine (hlabel.and (h'.reaches _ hr)).step fun n ⟨hn, hvalue⟩ => ?_
    rw [List.cons_append] at hn
    simp [parse, hn, hvalue, hspread]

theorem spread (h : Found .assignment u e) : Found .field (.sign "..." :: u) (.spread e) := by
  intro rest hr
  exact (h.reaches _ hr).step fun n hn => by simp [parse, hn]

end Functions

/-! ### Lists -/

section Lists

variable {item : Category} {u v : List Token} {a : item.Tree} {as : List item.Tree}

theorem seriesOne (h : Found item u a) : Found (.series item) u [a] := by
  intro rest hr
  have hrest : Stops item rest := hr.mono fun t ht => (Bool.and_eq_true_iff.1 ht).1
  refine (h.reaches _ hrest).step fun n hn => ?_
  cases rest with
  | nil =>
    rw [List.append_nil] at hn ⊢
    simp [parse, hn]
  | cons t rest =>
    have hcomma : t ≠ .sign "," := by
      rintro rfl
      simp [Stops, Category.stops] at hr
    simp [parse, hn, hcomma]

theorem seriesMore (hitem : item.isItem = true) (h : Found item u a)
    (h' : Found (.series item) v as) : Found (.series item) (u ++ .sign "," :: v) (a :: as) := by
  intro rest hr
  have hcomma : Stops item (.sign "," :: (v ++ rest)) := by
    cases item <;> first | rfl | cases hitem
  exact ((h.reaches _ hcomma).and (h'.reaches _ hr)).step fun n ⟨hn, hmore⟩ => by
    simp [parse, hn, hmore]

/-- Where no `item` starts, a list is empty. -/
theorem commasNone : Found (.commas item) [] [] := by
  intro rest hr
  refine .of_succ fun n => ?_
  cases rest with
  | nil => simp [parse]
  | cons t rest =>
    have ht := (Bool.and_eq_true_iff.1 (show Category.stops _ t = true from hr)).2
    simp [parse, show item.opens t = false by simpa using ht]

theorem commasSome (h : Found (.series item) u as) (hu : u.head?.any item.opens = true) :
    Found (.commas item) u as := by
  intro rest hr
  have hrest : Stops (.series item) rest := hr.mono fun t ht => (Bool.and_eq_true_iff.1 ht).1
  refine (h.reaches _ hrest).step fun n hn => ?_
  have hfirst : (u ++ rest).head?.any item.opens = true := any_head?_append hu
  simp only [parse, hfirst, if_true]
  exact hn

theorem manyNil : Found (.many item) [] [] := by
  intro rest hr
  refine .of_succ fun n => ?_
  cases rest with
  | nil => simp [parse]
  | cons t rest =>
    have ht := (Bool.and_eq_true_iff.1 (show Category.stops _ t = true from hr)).2
    simp [parse, show item.opens t = false by simpa using ht]

/-- A line ends where the next one of `v` starts. -/
theorem manyCons (hitem : item.isLine = true) (h : Found item u a)
    (hu : u.head?.any item.opens = true) (hv : Derives (.many item) v as)
    (h' : Found (.many item) v as) : Found (.many item) (u ++ v) (a :: as) := by
  intro rest hr
  have hline : Stops item (v ++ rest) :=
    hv.stops_many hitem (hr.mono fun t ht => (Bool.and_eq_true_iff.1 ht).1)
      fun t ht => stops_of_opens hitem ht
  refine ((h.reaches _ hline).and (h'.reaches _ hr)).step fun n ⟨hn, hmore⟩ => ?_
  have hfirst : (u ++ (v ++ rest)).head?.any item.opens = true := any_head?_append hu
  simp only [parse, List.append_assoc, hfirst, if_true]
  simp [hn, hmore]

end Lists

/-! ### Statements -/

section Statements

variable {u v w : List Token} {x : String} {e : Expr} {b : List Stmt}
  {as : List (Expr × List Stmt)}

theorem const (h : Found .name u x) (h' : Found .assignment v e) :
    Found .stmt (.word "const" :: u ++ .sign "=" :: (v ++ [Token.sign ";"])) (.const x e) := by
  intro rest _
  have hname := h.reaches (.sign "=" :: (v ++ .sign ";" :: rest)) rfl
  have hvalue := h'.reaches (.sign ";" :: rest) rfl
  exact (hname.and hvalue).step fun n ⟨hn, hvalue⟩ => by simp [parse, hn, hvalue]

theorem declare (h : Found .name u x) :
    Found .stmt (.word "let" :: u ++ [Token.sign ";"]) (.declare x none) := by
  intro rest _
  exact (h.reaches (.sign ";" :: rest) rfl).step fun n hn => by simp [parse, hn]

theorem declareAs (h : Found .name u x) (h' : Found .assignment v e) :
    Found .stmt (.word "let" :: u ++ .sign "=" :: (v ++ [Token.sign ";"]))
      (.declare x (some e)) := by
  intro rest _
  have hname := h.reaches (.sign "=" :: (v ++ .sign ";" :: rest)) rfl
  have hvalue := h'.reaches (.sign ";" :: rest) rfl
  exact (hname.and hvalue).step fun n ⟨hn, hvalue⟩ => by simp [parse, hn, hvalue]

/-- `x`, which is assigned to, is read as an expression first. -/
theorem assign (hx : x ∉ keywords) (h : Found .assignment v e) :
    Found .stmt (.word x :: .sign "=" :: (v ++ [Token.sign ";"])) (.assign x e) := by
  intro rest _
  have hname := (name hx).reaches (.sign "=" :: (v ++ .sign ";" :: rest)) rfl
  have hvalue := h.reaches (.sign ";" :: rest) rfl
  refine (hname.and hvalue).step fun n ⟨hn, hvalue⟩ => ?_
  have hwords := ne_of_opensExpr (t := .word x)
    (by simp [Token.opensExpr, Token.opensMember, Token.opensPrimary, hx])
  simp only [statementWords, List.forall_mem_cons, ne_eq, Token.word.injEq] at hwords
  rw [List.singleton_append] at hn
  simp [parse, hn, hvalue, hwords]

/-- No expression starts with one of `statementWords`, so no other statement is read. -/
theorem expr (h : Found .assignment u e) (hu : u.head?.any Token.opensExpr = true) :
    Found .stmt (u ++ [Token.sign ";"]) (.expr e) := by
  intro rest _
  cases u with
  | nil => cases hu
  | cons t u =>
    refine (h.reaches (.sign ";" :: rest) rfl).step fun n hn => ?_
    have hwords := ne_of_opensExpr (t := t) hu
    simp only [statementWords, List.forall_mem_cons] at hwords
    rw [List.cons_append] at hn
    simp [parse, hn, hwords]

theorem chain (h : Found .arms u as) (hu : u.head? = some (.word "if")) :
    Found .stmt u (.chain as) := by
  intro rest hr
  obtain ⟨u, rfl⟩ : ∃ u', u = .word "if" :: u' := List.head?_eq_some_iff.1 hu
  refine (h.reaches _ hr).step fun n hn => ?_
  rw [List.cons_append] at hn
  simp [parse, hn]

theorem loop (h : Found .block u b) :
    Found .stmt (.word "while" :: .sign "(" :: .word "true" :: .sign ")" :: u) (.loop b) := by
  intro rest _
  have hblock := h.reaches rest (by cases rest <;> rfl)
  exact hblock.step fun n hn => by simp [parse, hn]

theorem ret (h : Found .assignment u e) (hu : u.head?.any Token.opensExpr = true) :
    Found .stmt (.word "return" :: u ++ [Token.sign ";"]) (.ret e) := by
  intro rest _
  cases u with
  | nil => cases hu
  | cons t u =>
    have hsemicolon : t ≠ .sign ";" := by
      rintro rfl
      cases hu
    refine (h.reaches (.sign ";" :: rest) rfl).step fun n hn => ?_
    rw [List.cons_append] at hn
    simp [parse, hn, hsemicolon]

theorem throw (h : Found .assignment u e) :
    Found .stmt (.word "throw" :: u ++ [Token.sign ";"]) (.throw e) := by
  intro rest _
  exact (h.reaches (.sign ";" :: rest) rfl).step fun n hn => by simp [parse, hn]

theorem lastArm (h : Found .assignment u e) (h' : Found .block v b) :
    Found .arms (.word "if" :: .sign "(" :: (u ++ .sign ")" :: v)) [(e, b)] := by
  intro rest hr
  have htest := h.reaches (.sign ")" :: (v ++ rest)) rfl
  have hblock := h'.reaches rest (by cases rest <;> rfl)
  refine (htest.and hblock).step fun n ⟨hn, hblock⟩ => ?_
  cases rest with
  | nil =>
    rw [List.append_nil] at *
    simp [parse, hn, hblock]
  | cons t rest =>
    have helse : t ≠ .word "else" := by
      rintro rfl
      cases hr
    simp [parse, hn, hblock, helse]

theorem arm (h : Found .assignment u e) (h' : Found .block v b) (h'' : Found .arms w as) :
    Found .arms (.word "if" :: .sign "(" :: (u ++ .sign ")" :: (v ++ .word "else" :: w)))
      ((e, b) :: as) := by
  intro rest hr
  have htest := h.reaches (.sign ")" :: (v ++ .word "else" :: (w ++ rest))) rfl
  have hblock := h'.reaches (.word "else" :: (w ++ rest)) rfl
  have hmore := h''.reaches _ hr
  exact ((htest.and hblock).and hmore).step fun n ⟨⟨hn, hblock⟩, hmore⟩ => by
    simp [parse, hn, hblock, hmore]

end Statements

/-! ### Modules -/

section Modules

variable {u v w : List Token} {x p path : String} {names : List (String × Option String)}

theorem importLine (h : Found .name u x) :
    Found .importLine (.word "import" :: .sign "*" :: .word "as" ::
      (u ++ [Token.word "from", .text path, .sign ";"])) ⟨x, path⟩ := by
  intro rest _
  have hname := h.reaches (.word "from" :: .text path :: .sign ";" :: rest) rfl
  exact hname.step fun n hn => by simp [parse, hn]

theorem exportName (h : Found .label u x) : Found .exportName u (x, none) := by
  intro rest hr
  have hlabel := h.reaches rest (by cases rest <;> rfl)
  refine hlabel.step fun n hn => ?_
  cases rest with
  | nil =>
    rw [List.append_nil] at *
    simp [parse, hn]
  | cons t rest =>
    have has : t ≠ .word "as" := by
      rintro rfl
      cases hr
    simp [parse, hn, has]

theorem exportAs (h : Found .label u x) (h' : Found .label v p) :
    Found .exportName (u ++ .word "as" :: v) (x, some p) := by
  intro rest _
  have hlabel := h.reaches (.word "as" :: (v ++ rest)) rfl
  have hpublic := h'.reaches rest (by cases rest <;> rfl)
  exact (hlabel.and hpublic).step fun n ⟨hn, hpublic⟩ => by simp [parse, hn, hpublic]

theorem exportLine (h : Found (.commas .exportName) u names) :
    Found .exportLine (.word "export" :: .sign "\x7b" :: (u ++ [Token.sign "\x7d", .sign ";"]))
      ⟨names, none⟩ := by
  intro rest _
  have hnames := h.reaches (.sign "\x7d" :: .sign ";" :: rest) rfl
  exact hnames.step fun n hn => by simp [parse, hn]

theorem exportFrom (h : Found (.commas .exportName) u names) :
    Found .exportLine (.word "export" :: .sign "\x7b" ::
      (u ++ [Token.sign "\x7d", .word "from", .text path, .sign ";"])) ⟨names, some path⟩ := by
  intro rest _
  have hnames := h.reaches
    (.sign "\x7d" :: .word "from" :: .text path :: .sign ";" :: rest) rfl
  exact hnames.step fun n hn => by simp [parse, hn]

theorem module {is : List Import} {ss : List Stmt} {es : List ExportList}
    (hu : Found (.many .importLine) u is) (hv : Found (.many .stmt) v ss)
    (hw : Found (.many .exportLine) w es) (dv : Derives (.many .stmt) v ss)
    (dw : Derives (.many .exportLine) w es) : Found .module (u ++ (v ++ w)) ⟨is, ss, es⟩ := by
  intro rest hr
  obtain rfl : rest = [] := by
    cases rest with
    | nil => rfl
    | cons t rest => cases hr
  -- neither a statement nor an import starts like an export, and no statement like an import
  have hafter (c : Category) (hstops : c.stops (.word "export") = true) : Stops c (w ++ []) :=
    dw.stops_many rfl rfl fun t ht => by
      obtain rfl : t = .word "export" := by simpa [Category.opens] using ht
      exact hstops
  have hstmts : Stops (.many .importLine) (v ++ (w ++ [])) :=
    dv.stops_many rfl (hafter _ rfl) fun t ht => by
      have himport : t ≠ .word "import" := by
        rintro rfl
        cases ht
      simp [Category.stops, Category.opens, himport]
  have hexports : Stops (.many .stmt) (w ++ []) := hafter _ rfl
  have hlines := ((hu.reaches _ hstmts).and (hv.reaches _ hexports)).and (hw.reaches [] rfl)
  refine hlines.step fun n ⟨⟨hn, hstmts⟩, hexports⟩ => ?_
  simp only [List.append_nil] at hn hstmts hexports ⊢
  simp [parse, hn, hstmts, hexports]

end Modules

end Found

/-! ### The parser on derivations -/

/-- By induction on the derivation: the parser finds its tree. -/
theorem Derives.found {c : Category} {u : List Token} {a : c.Tree} (h : Derives c u a)
    (hc : c.isRegular = Bool.true) : Found c u a := by
  -- one lemma for each rule of the grammar, named after it, says how the parser gets to the tree
  induction h with
  | name | labelWord | labelText | int | text | true | false | undefined | again | least
  | retUndefined =>
    intro rest _
    exact .of_succ fun n => by simp [parse]
  | ident h =>
    cases h with
    | name hw => exact .ident hw
  | array _ ih => exact (ih rfl).array
  | object _ ih => exact (ih rfl).object
  | parens _ ih => exact (ih rfl).parens
  | primary h ih => exact (ih rfl).primary (h.opens rfl)
  | access _ ih => exact (ih rfl).access _
  | index _ _ ihu ihv => exact (ihu rfl).index (ihv rfl)
  | new _ _ ihu ihv => exact (ihu rfl).new (ihv rfl)
  | call _ _ ihu ihv => exact (ihu rfl).call (ihv rfl)
  | member h ih => exact (ih rfl).member (h.opens rfl)
  | unaryOp hs h ih => exact .unaryOp hs (ih rfl) (h.opens rfl)
  | unary _ ih => exact (ih rfl).unary
  | tighter _ ih => exact (ih rfl).tighter
  | binaryOp hs _ _ ihu ihv => exact .binaryOp hs (ihu rfl) (ihv rfl)
  | binary _ ih => exact (ih rfl).ofBinary
  | choice _ _ _ iht ihy ihn => exact (iht rfl).choice (ihy rfl) (ihn rfl)
  | conditional _ ih => exact (ih rfl).conditional
  | arrowOne h _ _ ihv =>
    cases h with
    | name hw => exact .arrowOne hw (ihv rfl)
  | arrow h _ ihu ihv => exact .arrow h (ihu rfl) (ihv rfl)
  -- the parser looks at the first token to tell a body in braces from an expression
  | concise h hbrace ih =>
    obtain ⟨t, u, rfl, -⟩ := h.exists_cons rfl
    exact (ih rfl).concise (List.cons_ne_nil t u) hbrace
  | body h ih =>
    obtain ⟨t, u, rfl, ht⟩ := h.exists_cons rfl
    exact (ih rfl).body (by simpa [Category.opens] using ht)
  | block _ ih => exact (ih rfl).block
  | field h _ ihu ihv => exact (ihu rfl).field (h.opens rfl) (ihv rfl)
  | spread _ ih => exact (ih rfl).spread
  | one _ ih => exact (ih (Category.isRegular_of_isItem hc)).seriesOne
  | more _ _ ihu ihv => exact .seriesMore hc (ihu (Category.isRegular_of_isItem hc)) (ihv hc)
  | none => exact .commasNone
  | @some item _ _ h ih =>
    exact (ih hc).commasSome (h.opens (by cases item <;> first | rfl | cases hc))
  | nil => exact .manyNil
  | @cons item _ _ _ _ h h' ihu ihv =>
    have hopens := h.opens (by cases item <;> first | rfl | cases hc)
    exact .manyCons hc (ihu (Category.isRegular_of_isLine hc)) hopens h' (ihv hc)
  | const _ _ ihu ihv => exact (ihu rfl).const (ihv rfl)
  | declare _ ih => exact (ih rfl).declare
  | declareAs _ _ ihu ihv => exact (ihu rfl).declareAs (ihv rfl)
  | assign h _ _ ihv =>
    cases h with
    | name hw => exact .assign hw (ihv rfl)
  | expr h _ ih => exact (ih rfl).expr (h.opens rfl)
  | chain h ih =>
    obtain ⟨t, u, rfl, ht⟩ := h.exists_cons rfl
    exact (ih rfl).chain (by simpa [Category.opens] using ht)
  | loop _ ih => exact (ih rfl).loop
  | ret h ih => exact (ih rfl).ret (h.opens rfl)
  | throw _ ih => exact (ih rfl).throw
  | lastArm _ _ ihu ihv => exact (ihu rfl).lastArm (ihv rfl)
  | arm _ _ _ ihu ihv ihw => exact (ihu rfl).arm (ihv rfl) (ihw rfl)
  | importLine _ ih => exact (ih rfl).importLine
  | exportName _ ih => exact (ih rfl).exportName
  | exportAs _ _ ihu ihv => exact (ihu rfl).exportAs (ihv rfl)
  | exportLine _ ih => exact (ih rfl).exportLine
  | exportFrom _ ih => exact (ih rfl).exportFrom
  | module _ hv hw ihu ihv ihw => exact .module (ihu rfl) (ihv rfl) (ihw rfl) hv hw

/-- Both trees are found with the same fuel, so they are the same. -/
theorem Derives.unique {c : Category} {u : List Token} {a b : c.Tree} (h : Derives c u a)
    (h' : Derives c u b) (hc : c.isRegular = Bool.true) : a = b := by
  have hend : Stops c [] := rfl
  obtain ⟨n, hn⟩ := ((h.found hc).reaches _ hend).and ((h'.found hc).reaches _ hend)
  obtain ⟨hleft, hright⟩ := hn n (Nat.le_refl n)
  rw [hleft] at hright
  simpa using hright

end TailLoop.Script
